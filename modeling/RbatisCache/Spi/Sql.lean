import Mathlib.Data.Finset.Basic
import RbatisCache.Spi.Primitives

/-! SQL classification (`sql.rs`) over the part of the parser's syntax tree that decides it. -/
namespace RbatisCache

/-- `sqlparser::ast::LockType` of a `FOR …` clause. -/
inductive LockType where
  | share | update
  deriving DecidableEq, Repr

mutual
/-- A statement with the queries nested in it; statements of no interest here are `other`. -/
inductive Statement where
  | query (q : Query)
  | insert (nested : List Query)
  | update (nested : List Query)
  | delete (nested : List Query)
  | merge (nested : List Query)
  | other (nested : List Query)
/-- A query: its `WITH` list, its body, the queries in its remaining clauses and its locks. -/
inductive Query where
  | mk (ctes : List Query) (body : SetExpr) (nested : List Query) (locks : List LockType)
/-- A query body. `nested` are the queries in the expressions and table factors of the body. -/
inductive SetExpr where
  | select (into : Option String) (nested : List Query)
  | query (q : Query)
  | setOperation (left right : SetExpr)
  | values (nested : List Query)
  | insert (s : Statement)
  | update (s : Statement)
  | delete (s : Statement)
  | merge (s : Statement)
  | table
end

/-- What makes a statement something else than a pure non-locking read. -/
inductive Construct where
  | write
  | selectInto
  | lock (l : LockType)
  deriving DecidableEq, Repr

mutual
/-- All such constructs of a statement, at any depth. -/
def Statement.constructs : Statement → List Construct
  | .query q => q.constructs
  | .insert nested | .update nested | .delete nested | .merge nested =>
    .write :: constructsOf nested
  | .other nested => constructsOf nested
def Query.constructs : Query → List Construct
  | .mk ctes body nested locks =>
    constructsOf ctes ++ body.constructs ++ constructsOf nested ++ locks.map .lock
def SetExpr.constructs : SetExpr → List Construct
  | .select into nested => (if into.isSome then [.selectInto] else []) ++ constructsOf nested
  | .query q => q.constructs
  | .setOperation left right => left.constructs ++ right.constructs
  | .values nested => constructsOf nested
  | .insert s | .update s | .delete s | .merge s => .write :: s.constructs
  | .table => []
def constructsOf : List Query → List Construct
  | [] => []
  | q :: rest => q.constructs ++ constructsOf rest
end

/-- A pure read but for its locks. -/
def Construct.IsLock : Construct → Prop
  | .lock _ => True
  | .write | .selectInto => False

instance : ∀ c : Construct, Decidable c.IsLock
  | .lock _ => .isTrue trivial
  | .write | .selectInto => .isFalse id

/-- The functions of the parser crate that the cache calls. -/
structure SqlParser where
  /-- The full syntax tree of a statement. -/
  Ast : Type
  /-- `Parser::parse_sql(&GenericDialect {}, sql)`, its error already rendered. -/
  parseSql : String → Except String (List Ast)
  statement : Ast → Statement
  /-- `Statement::to_string`. -/
  display : Ast → String
  /-- The relations `visit_relations` meets, rendered, in the order it meets them. -/
  visitRelations : List Ast → List String

/-- How a lock clause is printed. -/
def LockType.text : LockType → String
  | .share => "FOR SHARE"
  | .update => "FOR UPDATE"

/-- `Display` prints every lock clause of a parsed statement, at any depth. -/
def SqlParser.ShowsLocks (parser : SqlParser) : Prop :=
  ∀ sql statements, parser.parseSql sql = .ok statements → ∀ a ∈ statements, ∀ l,
    .lock l ∈ (parser.statement a).constructs → contains (parser.display a) l.text = true

inductive StatementKind where
  | select
  | other
  deriving DecidableEq, Repr

structure SqlMetadata where
  canonicalSql : String
  tableTags : Finset String
  kind : StatementKind
  lockingSelect : Bool

/-- `statements.len() == 1 && matches!(statements[0], Statement::Query(_))`. -/
def StatementKind.classify : List Statement → StatementKind
  | [.query _] => .select
  | _ => .other

namespace SqlMetadata

/-- The part of `SqlMetadata::parse` that follows the parser. -/
def ofStatements (parser : SqlParser) (statements : List parser.Ast) : SqlMetadata :=
  let kind := StatementKind.classify (statements.map parser.statement)
  let tableTags := ((parser.visitRelations statements).map toAsciiLowercase).toFinset
  let canonical := "; ".intercalate (statements.map parser.display)
  let lower := toAsciiLowercase canonical
  let lockingSelect :=
    kind == .select && (contains lower "for update" || contains lower "for share")
  ⟨canonical, tableTags, kind, lockingSelect⟩

def parse (parser : SqlParser) (sql : String) : Except CacheError SqlMetadata :=
  match parser.parseSql sql with
  | .error message => .error (.sql message)
  | .ok statements => .ok (ofStatements parser statements)

def isCacheable (m : SqlMetadata) : Bool := m.kind == .select && !m.lockingSelect

/-- The printed form mentions a lock. -/
def MentionsLock (canonical : String) : Prop :=
  contains (toAsciiLowercase canonical) "for update" = true ∨
    contains (toAsciiLowercase canonical) "for share" = true

variable {parser : SqlParser}

theorem isCacheable_singleton {a : parser.Ast} {q : Query} (hq : parser.statement a = .query q) :
    (ofStatements parser [a]).isCacheable = true ↔ ¬ MentionsLock (parser.display a) := by
  simp [isCacheable, ofStatements, StatementKind.classify, hq, MentionsLock,
    String.intercalate_singleton]

theorem isCacheable_iff {statements : List parser.Ast} :
    (ofStatements parser statements).isCacheable = true ↔
      ∃ a q, statements = [a] ∧ parser.statement a = .query q ∧
        ¬ MentionsLock (parser.display a) := by
  constructor
  · intro h
    have hkind : StatementKind.classify (statements.map parser.statement) = .select := by
      simp only [isCacheable, ofStatements, Bool.and_eq_true, beq_iff_eq] at h
      exact h.1
    unfold StatementKind.classify at hkind
    split at hkind
    · next q hs =>
      obtain ⟨a, rfl, ha⟩ := List.map_eq_singleton_iff.mp hs
      exact ⟨a, q, rfl, ha, (isCacheable_singleton ha).mp h⟩
    · cases hkind
  · rintro ⟨a, q, rfl, hq, hm⟩
    exact (isCacheable_singleton hq).mpr hm

theorem mentionsLock_of_shows (shows : parser.ShowsLocks) {sql : String}
    {statements : List parser.Ast} (parsed : parser.parseSql sql = .ok statements) {a : parser.Ast}
    (ha : a ∈ statements) {l : LockType} (h : .lock l ∈ (parser.statement a).constructs) :
    MentionsLock (parser.display a) := by
  have hl := contains_toAsciiLowercase (shows sql statements parsed a ha l h)
  cases l with
  | share => exact .inr hl
  | update => exact .inl hl

end SqlMetadata
end RbatisCache
