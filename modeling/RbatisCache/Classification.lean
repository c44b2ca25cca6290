import RbatisCache.CacheInterceptor.Call
import RbatisCache.RbatisInterceptor.Sample

/-! Which statements the two interceptors keep away from the cache. The hooks ask `is_cacheable`; the
loader-based interceptor asks for the kind of the statement alone, so it caches locking reads. -/
namespace RbatisCache
open Interleaving
open Interleaving.Prog (perform bind_eq perform_bind pure_eq Only Ensures)

/-- The statement is parsed and may be cached. -/
def Classified (parser : SqlParser) (sql : String) : Prop :=
  ∃ metadata, SqlMetadata.parse parser sql = .ok metadata ∧ metadata.isCacheable = true

/-- The statement is parsed as a query that locks. -/
def LockingRead (parser : SqlParser) (sql : String) : Prop :=
  ∃ metadata, SqlMetadata.parse parser sql = .ok metadata ∧ metadata.lockingSelect = true

/-- A lock clause at any depth of a query makes it a locking read. -/
theorem lockingRead_of_lock {parser : SqlParser} (shows : parser.ShowsLocks) {sql : String}
    {a : parser.Ast} {q : Query} (parsed : parser.parseSql sql = .ok [a])
    (hq : parser.statement a = .query q) {l : LockType} (h : .lock l ∈ q.constructs) :
    LockingRead parser sql := by
  have lock : .lock l ∈ (parser.statement a).constructs := by
    rw [hq, Statement.constructs]
    exact h
  have mentions := SqlMetadata.mentionsLock_of_shows shows parsed List.mem_cons_self lock
  refine ⟨SqlMetadata.ofStatements parser [a], ?_, ?_⟩
  · rw [SqlMetadata.parse, parsed]
  · simpa [SqlMetadata.ofStatements, StatementKind.classify, hq, SqlMetadata.MentionsLock,
      String.intercalate_singleton] using mentions

private theorem kind_of_lockingSelect {parser : SqlParser} {sql : String} {metadata : SqlMetadata}
    (parsed : SqlMetadata.parse parser sql = .ok metadata) (h : metadata.lockingSelect = true) :
    metadata.kind = .select := by
  unfold SqlMetadata.parse at parsed
  split at parsed
  · cases parsed
  · cases parsed
    simp only [SqlMetadata.ofStatements, Bool.and_eq_true, beq_iff_eq] at h
    exact h.1

/-! ### The loader-based interceptor -/

namespace CacheInterceptor

/-- An operation on the entries of the backend. -/
def Op.TouchesEntry : Op → Prop
  | .backend (.get _) | .backend (.put _ _ _) => True
  | _ => False

section
variable {P : Type} (X : Externals P) (policy : CachePolicy) (request : CacheRequest)

/-- A call consults the entries if its statement may be cached and the generation can be read; else
it runs its loader and leaves the entries alone. -/
structure Agrees : Prop where
  consults : Classified X.parser request.key.sql → (getOrLoad X policy request).Ensures
    (fun _ done => (∃ e, ⟨.backend (.generation request.key.nameSpace), .error e⟩ ∈ done) ∨
      ∃ k r, ⟨.backend (.get k), r⟩ ∈ done) []
  untouched : ¬ Classified X.parser request.key.sql →
    (getOrLoad X policy request).Only fun op => ¬ op.TouchesEntry
  loads : ¬ Classified X.parser request.key.sql →
    (getOrLoad X policy request).Ensures (fun _ done => ⟨.loaderStart, ()⟩ ∈ done) []

variable {X policy request}

private theorem bypass_untouched : (bypass : Prog Op (Op.Res P) _).Only fun op => ¬ op.TouchesEntry :=
  ⟨id, fun _ => ⟨id, fun _ => ⟨id, fun _ => ⟨id, fun _ => ⟨id, fun _ => trivial⟩⟩⟩⟩⟩

private theorem bypass_loads :
    (bypass : Prog Op (Op.Res P) _).Ensures (fun _ done => ⟨.loaderStart, ()⟩ ∈ done) [] := by
  refine ⟨trivial, fun _ => ⟨trivial, fun _ => ⟨trivial, fun _ => ⟨trivial, fun _ => ?_⟩⟩⟩⟩
  exact ⟨trivial, fun _ => List.mem_cons_of_mem _ (List.mem_cons_of_mem _ List.mem_cons_self)⟩

/-- The test that `get_or_load` makes. -/
theorem getOrLoad_of_not_select
    (h : ∀ metadata, SqlMetadata.parse X.parser request.key.sql = .ok metadata →
      metadata.kind ≠ .select) : getOrLoad X policy request = bypass := by
  unfold getOrLoad
  split
  · rfl
  · next metadata hm =>
    rw [if_pos]
    simp [h metadata hm]

private theorem consults_of_select {metadata : SqlMetadata} (outside : request.inTransaction = false)
    (hm : SqlMetadata.parse X.parser request.key.sql = .ok metadata) (kind : metadata.kind = .select) :
    (getOrLoad X policy request).Ensures
      (fun _ done => (∃ e, ⟨.backend (.generation request.key.nameSpace), .error e⟩ ∈ done) ∨
        ∃ k r, ⟨.backend (.get k), r⟩ ∈ done) [] := by
  unfold getOrLoad
  rw [hm]
  simp only [outside, kind, bne_self_eq_false, Bool.or_self, Bool.false_eq_true, if_false, bind_eq,
    perform_bind, pure_eq]
  refine ⟨trivial, fun generation => ?_⟩
  cases generation with
  | error e =>
    refine Prog.ensures_true.grows.mono fun _ done hd => .inl ⟨e, ?_⟩
    exact hd.2.subset List.mem_cons_self
  | ok g =>
    obtain ⟨key, hk⟩ := CacheKey.build_of_parse hm g
    simp only [hk, cached, bind_eq, perform_bind, pure_eq]
    refine ⟨trivial, fun found => ?_⟩
    refine Prog.ensures_true.grows.mono fun _ done hd => .inr ⟨key.digest, found, ?_⟩
    exact hd.2.subset List.mem_cons_self

/-- Exactly the locking reads are treated as if they could be cached. -/
theorem agrees_iff (outside : request.inTransaction = false) :
    Agrees X policy request ↔ ¬ LockingRead X.parser request.key.sql := by
  constructor
  · rintro agrees ⟨metadata, hm, locking⟩
    have refused : ¬ Classified X.parser request.key.sql := by
      rintro ⟨metadata', hm', cacheable⟩
      rw [hm] at hm'
      cases hm'
      simp [SqlMetadata.isCacheable, locking] at cacheable
    have kind := kind_of_lockingSelect hm locking
    have untouched := agrees.untouched refused
    unfold getOrLoad at untouched
    rw [hm] at untouched
    simp only [outside, kind, bne_self_eq_false, Bool.or_self, Bool.false_eq_true, if_false, bind_eq,
      perform_bind, pure_eq] at untouched
    obtain ⟨key, hk⟩ := CacheKey.build_of_parse hm 0
    have looks := untouched.2 (.ok 0)
    simp only [hk, cached, bind_eq, perform_bind, pure_eq] at looks
    exact looks.1 trivial
  · intro plain
    have other (refused : ¬ Classified X.parser request.key.sql) :
        getOrLoad X policy request = bypass := by
      refine getOrLoad_of_not_select fun metadata hm kind => ?_
      by_cases locking : metadata.lockingSelect = true
      · exact plain ⟨metadata, hm, locking⟩
      · exact refused ⟨metadata, hm, by simp [SqlMetadata.isCacheable, kind, locking]⟩
    refine ⟨?_, fun refused => ?_, fun refused => ?_⟩
    · rintro ⟨metadata, hm, cacheable⟩
      simp only [SqlMetadata.isCacheable, Bool.and_eq_true, beq_iff_eq] at cacheable
      exact consults_of_select outside hm cacheable.1
    · rw [other refused]
      exact bypass_untouched
    · rw [other refused]
      exact bypass_loads

end
end CacheInterceptor

/-! ### The hooks -/

namespace RbatisInterceptor
open RbatisCacheInterceptor

section
variable {V : Type} (I : RbatisCacheInterceptor) (X : Externals Bytes) (C : ValueCodec V)
variable (call : Call V)

/-- The hooks look into the caches if the statement may be cached and the generation can be read;
else they do nothing at all. -/
structure Agrees : Prop where
  test : isCacheable I X call.sql = true ↔ Classified X.parser call.sql
  consults : Classified X.parser call.sql → call.rb.isInTransaction = false →
    (before I X C call (.query ())).Ensures
      (fun _ done => (∃ e, ⟨.backend (.generation I.nameSpace), .error e⟩ ∈ done) ∨
        ∃ r, ⟨.l1Lookup call.rb.id, r⟩ ∈ done) []
  skips : ¬ Classified X.parser call.sql → before I X C call (.query ()) = .ret (.ok .next) ∧
    ∀ result, after I X C call (.query result) = .ret (.ok ())

variable {I X call}

private theorem isCacheable_iff_classified (filter : I.policy.useCacheFilter = none) :
    isCacheable I X call.sql = true ↔ Classified X.parser call.sql := by
  unfold isCacheable Classified
  cases h : SqlMetadata.parse X.parser call.sql with
  | error e => simp
  | ok metadata => simp [filter]

private theorem consults_of_cacheable (cacheable : isCacheable I X call.sql = true)
    (outside : call.rb.isInTransaction = false) :
    (before I X C call (.query ())).Ensures
      (fun _ done => (∃ e, ⟨.backend (.generation I.nameSpace), .error e⟩ ∈ done) ∨
        ∃ r, ⟨.l1Lookup call.rb.id, r⟩ ∈ done) [] := by
  unfold before bufferedValue beforeLookup resolveKey
  simp only [cacheable, outside, Bool.not_true, Bool.false_and, Bool.false_eq_true, if_false, bind_eq,
    perform_bind, pure_eq, Prog.ret_bind, Prog.call_bind]
  refine ⟨trivial, fun generation => ?_⟩
  cases generation with
  | error e =>
    refine Prog.ensures_true.grows.mono fun _ done hd => .inl ⟨e, ?_⟩
    exact hd.2.subset List.mem_cons_self
  | ok g =>
    obtain ⟨metadata, hm⟩ : ∃ metadata, SqlMetadata.parse X.parser call.sql = .ok metadata := by
      unfold isCacheable at cacheable
      cases h : SqlMetadata.parse X.parser call.sql with
      | error e => simp [h] at cacheable
      | ok metadata => exact ⟨metadata, rfl⟩
    have parsed : SqlMetadata.parse X.parser (buildKeyInput I C call).sql = .ok metadata := hm
    obtain ⟨key, hk⟩ := CacheKey.build_of_parse parsed g
    simp only [hk, Except.mapError, lookupValue, l1Get, bind_eq, perform_bind, pure_eq, Prog.ret_bind,
      Prog.call_bind]
    refine ⟨trivial, fun found => ?_⟩
    refine Prog.ensures_true.grows.mono fun _ done hd => .inr ⟨found, ?_⟩
    exact hd.2.subset List.mem_cons_self

/-- The hooks treat every statement as its classification says. -/
theorem agrees (filter : I.policy.useCacheFilter = none) : Agrees I X C call where
  test := isCacheable_iff_classified filter
  consults classified := consults_of_cacheable C ((isCacheable_iff_classified filter).mpr classified)
  skips refused := by
    have h : isCacheable I X call.sql = false := by
      rw [← Bool.not_eq_true]
      exact fun cacheable => refused ((isCacheable_iff_classified filter).mp cacheable)
    simp [before, after, afterQuery, h]

end
end RbatisInterceptor

/-- The hooks always treat a statement as its classification says, when no filter is configured. The
loader-based interceptor does so, outside transactions, exactly if the statement is not a locking
read. -/
theorem interceptors_agree_iff {P V : Type} {Y : Externals P} {policy : CachePolicy}
    {request : CacheInterceptor.CacheRequest} {X : Externals Bytes}
    {C : RbatisInterceptor.ValueCodec V} {I : RbatisInterceptor.RbatisCacheInterceptor}
    {call : RbatisInterceptor.Call V} (outside : request.inTransaction = false)
    (filter : I.policy.useCacheFilter = none) (parser : Y.parser = X.parser)
    (sql : request.key.sql = call.sql) :
    (CacheInterceptor.Agrees Y policy request ∧ RbatisInterceptor.Agrees I X C call) ↔
      ¬ LockingRead X.parser call.sql := by
  have loader : CacheInterceptor.Agrees Y policy request ↔ ¬ LockingRead Y.parser request.key.sql :=
    CacheInterceptor.agrees_iff outside
  rw [← parser, ← sql, ← loader]
  exact ⟨fun h => h.1, fun h => ⟨h, RbatisInterceptor.agrees C filter⟩⟩

theorem select_agrees : CacheInterceptor.Agrees Sample.externals {} ⟨Sample.keyInput, false⟩ ∧
    RbatisInterceptor.Agrees Sample.interceptor Sample.externals Sample.codec
      (Sample.call 1 "SELECT 1") := by
  refine (interceptors_agree_iff rfl rfl rfl rfl).mpr ?_
  rintro ⟨metadata, parsed, locking⟩
  have h : (SqlMetadata.parse Sample.parser "SELECT 1").map SqlMetadata.lockingSelect = .ok false := by
    decide
  rw [show SqlMetadata.parse Sample.parser "SELECT 1" = .ok metadata from parsed] at h
  rw [Except.ok.inj h] at locking
  cases locking

/-- A locking read that the loader-based interceptor looks up and the hooks pass on. -/
theorem locking_read_consulted : ∃ request : CacheInterceptor.CacheRequest,
    request.inTransaction = false ∧
    ¬ CacheInterceptor.Agrees Sample.externals {} request ∧
    ∀ call : RbatisInterceptor.Call UInt64, call.sql = request.key.sql →
      RbatisInterceptor.RbatisCacheInterceptor.before Sample.interceptor Sample.externals
        Sample.codec call (.query ()) = .ret (.ok .next) := by
  have locking : LockingRead Sample.parser "SELECT id FROM users FOR UPDATE" :=
    lockingRead_of_lock (a := ⟨"SELECT id FROM users FOR UPDATE", .query Sample.lockingSelect, ["users"]⟩)
      Sample.parser_showsLocks rfl rfl (l := .update) (List.mem_singleton.mpr rfl)
  refine ⟨⟨{ Sample.keyInput with sql := "SELECT id FROM users FOR UPDATE" }, false⟩, rfl, ?_, ?_⟩
  · rw [CacheInterceptor.agrees_iff rfl, not_not]
    exact locking
  · intro call hsql
    have agrees : RbatisInterceptor.Agrees Sample.interceptor Sample.externals Sample.codec call :=
      RbatisInterceptor.agrees Sample.codec rfl
    refine (agrees.skips ?_).1
    rw [hsql]
    rintro ⟨metadata, parsed, cacheable⟩
    obtain ⟨metadata', parsed', locking'⟩ := locking
    cases parsed.symm.trans parsed'
    simp [SqlMetadata.isCacheable, locking'] at cacheable

end RbatisCache
