import RbatisCache.RbatisInterceptor.Sample

/-! Which statements the hooks answer without executing them. -/
namespace RbatisCache.RbatisInterceptor
open Interleaving
open RbatisCacheInterceptor

/-- A single statement that neither writes nor locks, at any depth. -/
def PureRead (parser : SqlParser) (statements : List parser.Ast) : Prop :=
  ∃ a, statements = [a] ∧ (parser.statement a).constructs = []

/-- A single query whose printed form mentions no lock has nothing in it, at any depth, that
writes. -/
def NoHiddenWrite (parser : SqlParser) (statements : List parser.Ast) : Prop :=
  ∀ a q, statements = [a] → parser.statement a = .query q →
    ¬ SqlMetadata.MentionsLock (parser.display a) → ∀ c ∈ q.constructs, c.IsLock

section
variable {V : Type} {I : RbatisCacheInterceptor} {X : Externals Bytes} {C : ValueCodec V}
variable {parser : SqlParser} {statements : List parser.Ast}

private theorem pureRead_of_noHiddenWrite (shows : parser.ShowsLocks) {sql : String}
    (parsed : parser.parseSql sql = .ok statements) (hidden : NoHiddenWrite parser statements)
    (cacheable : (SqlMetadata.ofStatements parser statements).isCacheable = true) :
    PureRead parser statements := by
  obtain ⟨a, q, rfl, hq, hm⟩ := SqlMetadata.isCacheable_iff.mp cacheable
  refine ⟨a, rfl, List.eq_nil_iff_forall_not_mem.mpr fun c hc => ?_⟩
  have hqc : c ∈ q.constructs := by simpa [hq, Statement.constructs] using hc
  -- what is left are locks, and those are printed
  cases c with
  | write => exact hidden a q rfl hq hm _ hqc
  | selectInto => exact hidden a q rfl hq hm _ hqc
  | lock l => exact hm (SqlMetadata.mentionsLock_of_shows shows parsed List.mem_cons_self hc)

private theorem noHiddenWrite_of_pureRead
    (pure : (SqlMetadata.ofStatements parser statements).isCacheable = true →
      PureRead parser statements) : NoHiddenWrite parser statements := by
  rintro a q rfl hq hm c hc
  obtain ⟨b, hb, hnil⟩ := pure ((SqlMetadata.isCacheable_singleton hq).mpr hm)
  cases hb
  rw [hq, Statement.constructs] at hnil
  rw [hnil] at hc
  cases hc

/-- Only what is cacheable is ever answered by a `before`. -/
theorem isCacheable_of_returns {call : Call V} {v : V}
    (h : (before I X C call (.query ())).Returns (.ok (.return v))) :
    isCacheable I X call.sql = true := by
  simp only [before, Prog.bind_eq, Prog.pure_eq] at h
  split at h
  · cases h
  · next hc => simpa using hc

private theorem cacheable_of_isCacheable {sql : String} (h : isCacheable I X sql = true) :
    ∃ statements, X.parser.parseSql sql = .ok statements ∧
      (SqlMetadata.ofStatements X.parser statements).isCacheable = true := by
  unfold isCacheable SqlMetadata.parse at h
  cases hp : X.parser.parseSql sql with
  | error message => simp [hp] at h
  | ok statements =>
    refine ⟨statements, rfl, ?_⟩
    by_contra hc
    simp [hp, hc] at h

/-- A parsed statement list is cacheable only as a pure read if and only if it has no hidden writes;
without hidden writes, a `before` answers nothing but pure reads from the caches. -/
theorem cacheable_pure_iff (shows : X.parser.ShowsLocks) :
    (∀ sql statements, X.parser.parseSql sql = .ok statements →
      (((SqlMetadata.ofStatements X.parser statements).isCacheable = true →
        PureRead X.parser statements) ↔ NoHiddenWrite X.parser statements)) ∧
    ∀ (I : RbatisCacheInterceptor) (C : ValueCodec V) (call : Call V) (v : V),
      (before I X C call (.query ())).Returns (.ok (.return v)) →
      ∃ statements, X.parser.parseSql call.sql = .ok statements ∧
        (NoHiddenWrite X.parser statements → PureRead X.parser statements) := by
  constructor
  · intro sql statements parsed
    exact ⟨noHiddenWrite_of_pureRead, pureRead_of_noHiddenWrite shows parsed⟩
  · intro I C call v answered
    obtain ⟨statements, parsed, cacheable⟩ :=
      cacheable_of_isCacheable (isCacheable_of_returns answered)
    exact ⟨statements, parsed, fun hidden => pureRead_of_noHiddenWrite shows parsed hidden cacheable⟩

end

/-- A locking select is not cached; a plain one is, and it is a pure read. -/
theorem plain_select_pure :
    (SqlMetadata.parse Sample.parser "SELECT id FROM users FOR UPDATE").map
      SqlMetadata.isCacheable = .ok false ∧
    ∃ statements, Sample.parser.parseSql "SELECT 1" = .ok statements ∧
      (SqlMetadata.ofStatements Sample.parser statements).isCacheable = true ∧
      PureRead Sample.parser statements := by
  have shows : Sample.externals.parser.ShowsLocks := Sample.parser_showsLocks
  have cacheable : (SqlMetadata.ofStatements Sample.parser
      [⟨"SELECT 1", .query Sample.plainSelect, []⟩]).isCacheable = true := by
    decide +kernel
  refine ⟨by decide +kernel, [⟨"SELECT 1", .query Sample.plainSelect, []⟩], rfl, cacheable, ?_⟩
  refine (((cacheable_pure_iff (V := UInt64) shows).1 "SELECT 1" _ rfl).mpr ?_) cacheable
  rintro a q ha hq - c hc
  cases ha
  cases hq
  cases hc

/-- A `DELETE` in a `WITH` list is cacheable, and run a second time it is answered without being
executed. -/
theorem hidden_delete_answered :
    ∃ (d : Sample.State Bool) (call : Call UInt64) (statements : List Sample.Known),
      Sample.parser.parseSql call.sql = .ok statements ∧
      (SqlMetadata.ofStatements Sample.parser statements).isCacheable = true ∧
      ¬ PureRead Sample.parser statements ∧
      Reaches (Sample.steps Bool ⟨"ns", { maxValueSize := 4 }⟩) Restriction.none
        (Sample.start ⟨"ns", { maxValueSize := 4 }⟩ fun _ => Sample.select call) d ∧
      d.tasks true = .ret (.queried (.ok 7)) ∧
      ∀ t c r, ⟨t, .databaseQuery c, r⟩ ∈ d.history → t = false := by
  let call : Call UInt64 :=
    Sample.call 1 "WITH t AS (DELETE FROM users RETURNING id) SELECT id FROM t"
  obtain ⟨d, run, seen⟩ := play_observed
    (M := Sample.steps Bool ⟨"ns", { maxValueSize := 4 }⟩) (A := Restriction.none)
    (c := Sample.start ⟨"ns", { maxValueSize := 4 }⟩ fun _ => Sample.select call)
    (List.replicate 17 (false, Sample.reading 7) ++ List.replicate 5 (true, Sample.reading 8))
    (fun d => decide (d.returned true = some (.queried (.ok 7))) &&
      d.history.all fun e => match e.op with
        | .databaseQuery _ => !e.task
        | _ => true)
    (by decide +kernel)
  obtain ⟨returned, only⟩ := Bool.and_eq_true_iff.mp seen
  refine ⟨d, call, _, rfl, by decide +kernel, ?_, run,
    Config.returned_eq_some.mp (of_decide_eq_true returned), fun t c r hr => ?_⟩
  · rintro ⟨a, ha, hnil⟩
    cases ha
    cases hnil
  · have hall := List.all_eq_true.mp only _ hr
    simpa using hall

end RbatisCache.RbatisInterceptor
