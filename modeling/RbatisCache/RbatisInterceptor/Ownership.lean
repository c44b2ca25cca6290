import RbatisCache.RbatisInterceptor.Elections
import RbatisCache.RbatisInterceptor.Hooks
import RbatisCache.RbatisInterceptor.Sample

/-! Whether a load is completed by the query that has begun it. `complete_load` is called by the
`after` of every query, also of those that were never elected, and under the digest of the moment. -/
namespace RbatisCache.RbatisInterceptor
open Interleaving
open RbatisCacheInterceptor

section
variable {V T : Type}

/-- The query was elected and has not removed its load. -/
def Flying (h : History V T) (d : String) (t : T) : Prop :=
  ⟨t, .tryBeginLoad d, .leader⟩ ∈ h ∧ ⟨t, .removeLoad d, ()⟩ ∉ h

variable [DecidableEq T] {B : CacheBackend} {I : RbatisCacheInterceptor} {X : Externals Bytes}
variable {C : ValueCodec V} {tasks : T → Task V}

/-- While a load is in flight for a digest, `complete_load` is called for it only by queries that
were elected for it. -/
def CompletesAsLeader (t : T) (op : Op V) (w : World B V) (h : History V T) : Prop :=
  match op with
  | .finishLoad d _ => (w.singleflight.map.lookup d).isSome → ⟨t, .tryBeginLoad d, .leader⟩ ∈ h
  | _ => True

def LeadersComplete : Restriction T (Op V) Op.Res (Choice B V) (World B V) :=
  fun t op _ w h => CompletesAsLeader t op w h

/-- Every query completes the load that it has begun, and nobody else is elected before. -/
structure OwnLoads (c : Config T (Op V) Op.Res (World B V) (Reply V)) : Prop where
  /-- What an allowed `complete_load` finds or removes is the load of its caller. -/
  completed : ∀ {t op next d load}, c.tasks t = .call op next → op.completed = some d →
    CompletesAsLeader t op c.world c.history → c.world.singleflight.map.lookup d = some load →
    ∃ p, ⟨t, .tryBeginLoad d, .leader⟩ :: p <:+ c.history ∧ elections p = load
  exclusive : ∀ {u d q}, ⟨u, .tryBeginLoad d, .leader⟩ :: q <:+ c.history →
    ∀ t, ⟨t, .tryBeginLoad d, .leader⟩ ∈ q →
      ∃ call result, ⟨t, .enter (.after call (.query result)), ()⟩ ∈ q

/-- What has been found in the map was found by a query elected for the digest. -/
def FoundByLeader (e : Event T (Op V) Op.Res) (h : History V T) : Prop :=
  match e with
  | ⟨t, .finishLoad d _, found⟩ => found = true → ⟨t, .tryBeginLoad d, .leader⟩ ∈ h
  | _ => True

variable {t u : T} {d : String} {n : LoadId} {h s : History V T} {e : Event T (Op V) Op.Res}
variable {op : Op V} {r : op.Res}

omit [DecidableEq T] in
theorem Flying.cons (flying : Flying h d t) (other : e ≠ ⟨t, .removeLoad d, ()⟩) :
    Flying (e :: h) d t :=
  ⟨List.mem_cons_of_mem _ flying.1, fun removed => (List.mem_cons.mp removed).elim
    (fun same => other same.symm) flying.2⟩

omit [DecidableEq T] in
theorem Flying.of_cons (flying : Flying (e :: h) d t)
    (other : e ≠ ⟨t, .tryBeginLoad d, .leader⟩) : Flying h d t :=
  ⟨(List.mem_cons.mp flying.1).resolve_left fun same => other same.symm,
    fun removed => flying.2 (List.mem_cons_of_mem _ removed)⟩

/-- Whoever calls `complete_load` with success has not yet removed anything. -/
theorem removed_of_uncompleted (uncompleted : Uncompleted (h.own t)) :
    ⟨t, .removeLoad d, ()⟩ ∉ h :=
  fun removed => by cases uncompleted _ (History.mem_own.mpr removed)

/-- Whoever is about to remove a load was elected for the digest and has not removed it. -/
theorem flying_of_removing (always : h.Always FoundByLeader)
    (law : flies I X C (h.own t) (.removeLoad d)) : Flying h d t := by
  obtain ⟨success, rest, found, uncompleted⟩ := law
  obtain ⟨p, hp, hrest⟩ := History.exists_suffix_of_own (show h.own t = [] ++ _ from found)
  refine ⟨((List.suffix_cons _ _).trans hp).subset (always _ _ hp rfl), fun removed => ?_⟩
  have own := History.mem_own.mpr removed
  rw [found] at own
  cases own with
  | tail _ own => cases uncompleted _ own

/-- The loads in flight are those of the queries that were elected and have not removed them. -/
structure Matched (h : History V T) : Prop where
  flying : ∀ {d t n}, holder h d = some (t, n) → Flying h d t
  held : ∀ {d t}, Flying h d t → ∃ n, holder h d = some (t, n)

omit [DecidableEq T] in
theorem Matched.quiet (matched : Matched h) (same : ∀ d, holder (e :: h) d = holder h d)
    (elects : ∀ t d, e ≠ ⟨t, .tryBeginLoad d, .leader⟩)
    (removes : ∀ t d, e ≠ ⟨t, .removeLoad d, ()⟩) : Matched (e :: h) where
  flying {d t n} held := by
    rw [same] at held
    exact (matched.flying held).cons (removes t d)
  held {d t} flying := by
    rw [same]
    exact matched.held (flying.of_cons (elects t d))

theorem Matched.lead (matched : Matched h) (free : holder h d = none)
    (uncompleted : Uncompleted (h.own u)) : Matched (⟨u, .tryBeginLoad d, .leader⟩ :: h) where
  flying {d' t n} held := by
    by_cases same : d = d'
    · subst same
      rw [holder_lead] at held
      cases held
      refine ⟨List.mem_cons_self, fun removed => ?_⟩
      exact removed_of_uncompleted uncompleted ((List.mem_cons.mp removed).resolve_left nofun)
    · rw [holder_lead_ne same] at held
      exact (matched.flying held).cons nofun
  held {d' t} flying := by
    by_cases same : d = d'
    · subst same
      by_cases own : u = t
      · subst own
        exact ⟨_, holder_lead⟩
      · have before := flying.of_cons fun elected => own (congrArg Event.task elected)
        obtain ⟨n, held⟩ := matched.held before
        rw [free] at held
        cases held
    · rw [holder_lead_ne same]
      refine matched.held (flying.of_cons ?_)
      rintro ⟨⟩
      exact same rfl

omit [DecidableEq T] in
theorem Matched.remove (matched : Matched h) (mine : Flying h d u) :
    Matched (⟨u, .removeLoad d, ()⟩ :: h) where
  flying {d' t n} held := by
    by_cases same : d = d'
    · subst same
      rw [holder_remove] at held
      cases held
    · rw [holder_remove_ne same] at held
      refine (matched.flying held).cons ?_
      rintro ⟨⟩
      exact same rfl
  held {d' t} flying := by
    obtain ⟨n, held⟩ := matched.held (flying.of_cons nofun)
    by_cases same : d = d'
    · subst same
      -- two queries hold the load of one digest only if they are the same
      obtain ⟨m, held'⟩ := matched.held mine
      rw [held] at held'
      cases held'
      exact absurd List.mem_cons_self flying.2
    · rw [holder_remove_ne same]
      exact ⟨n, held⟩

private theorem matched_of_lawful (law : Lawful (fun _ => flies I X C) h) (found : h.Always FoundHeld)
    (always : h.Always FoundByLeader) : Matched h := by
  induction h with
  | nil =>
    exact ⟨fun held => (Option.some_ne_none _ held.symm).elim, fun flying => by cases flying.1⟩
  | cons e h ih =>
    have tail : h <:+ e :: h := List.suffix_cons _ _
    have matched := ih (law.suffix tail) (found.suffix tail) (always.suffix tail)
    obtain ⟨u, op, r⟩ := e
    have obeys : flies I X C (History.own h u) op := law _ _ (List.suffix_refl _)
    cases op with
    | tryBeginLoad d =>
      cases r with
      | follower load => exact matched.quiet (fun _ => holder_follow) nofun nofun
      | leader =>
        have free : holder h d = none :=
          (found _ _ (List.suffix_refl _) : FoundHeld ⟨u, .tryBeginLoad d, .leader⟩ h).mp rfl
        exact matched.lead free obeys.2
    | removeLoad d => exact matched.remove (flying_of_removing (always.suffix tail) obeys)
    | _ => exact matched.quiet (fun _ => holder_hover trivial) nofun nofun

private theorem reaches_foundByLeader {state : B.State}
    {c : Config T (Op V) Op.Res (World B V) (Reply V)}
    (run : Reaches (machine B V T I) LeadersComplete (initial I X C tasks state) c) :
    c.history.Always FoundByLeader := by
  refine run.permitted (fun t op ch w h r u allowed hm => ?_) rfl
  cases op with
  | finishLoad d success =>
    intro found
    refine allowed ?_
    simp only [machine, Option.some.injEq, Prod.mk.injEq, SingleFlight.finishLoad] at hm
    obtain ⟨answer, -⟩ := hm
    cases held : w.singleflight.map.lookup d with
    | some load => rfl
    | none =>
      rw [held] at answer
      rw [found] at answer
      cases answer
  | _ => trivial

/-- In every run in which `complete_load` finds a load only when its caller was elected for the
digest, it finds and removes only the load of its caller, and between an election and the `after` of
the same query nobody else is elected. -/
theorem loads_owned {state : B.State} {c : Config T (Op V) Op.Res (World B V) (Reply V)}
    (run : Reaches (machine B V T I) LeadersComplete (initial I X C tasks state) c) : OwnLoads c := by
  obtain ⟨law, tracked, obeys⟩ := reaches_tracked run
  have always := reaches_foundByLeader run
  have matched := matched_of_lawful law tracked.found always
  constructor
  · intro t op next d load htask completes allowed held
    have rule := obeys.allowed htask
    have flying : Flying c.history d t := by
      cases op with
      | finishLoad d' success =>
        cases completes
        exact ⟨allowed (Option.isSome_of_eq_some held), removed_of_uncompleted rule⟩
      | removeLoad d' =>
        cases completes
        exact flying_of_removing always rule
      | _ => cases completes
    obtain ⟨n, hn⟩ := matched.held flying
    have same := tracked.entries d
    rw [held, hn] at same
    cases same
    obtain ⟨p, hp, number, -⟩ := begun_of_holder hn
    exact ⟨p, hp, number⟩
  · intro u d q elected t first
    have past : q <:+ c.history := (List.suffix_cons _ _).trans elected
    have free : holder q d = none :=
      (tracked.found _ _ elected : FoundHeld ⟨u, .tryBeginLoad d, .leader⟩ q).mp rfl
    have removed : ⟨t, .removeLoad d, ()⟩ ∈ q := by
      by_contra present
      have matched := matched_of_lawful (law.suffix past) (tracked.found.suffix past)
        (always.suffix past)
      obtain ⟨n, held⟩ := matched.held ⟨first, present⟩
      rw [free] at held
      cases held
    have lawful := (reaches_lawful run).suffix past
    obtain ⟨s, hs⟩ := History.exists_suffix_of_mem removed
    obtain ⟨call, result, key, resolved⟩ : ∃ call result key,
      Resolved I X C call result key (History.own s t) := lawful _ _ hs
    have entered := History.mem_own.mp resolved.entered
    exact ⟨call, result, ((List.suffix_cons _ _).trans hs).subset entered⟩

/-- The same task asks for election before it completes anything. -/
theorem later_of_completed {p r : History V T} (law : Lawful (fun _ => flies I X C) h)
    (elected : ⟨t, .tryBeginLoad d, .leader⟩ :: p <:+ h) {answer : op.Res} {d' : String}
    (completes : op.completed = some d') (hr : ⟨t, op, answer⟩ :: r <:+ h) :
    ⟨t, .tryBeginLoad d, .leader⟩ :: p <:+ r := by
  rcases List.suffix_or_suffix_of_suffix elected hr with hs | hs
  · rcases List.suffix_cons_iff.mp hs with hs | hs
    · cases hs
      cases completes
    · exact hs
  · exfalso
    rcases List.suffix_cons_iff.mp hs with hs | hs
    · cases hs
      cases completes
    · have asked : flies I X C (History.own p t) (.tryBeginLoad d) := law _ _ elected
      have none := asked.2 _ (History.mem_own.mpr (hs.subset List.mem_cons_self))
      rw [completes] at none
      cases none

/-- In every run, once the `after` of an elected query has returned, its load is gone exactly if that
`after` came to the digest of the election or somebody else has removed the load. -/
theorem load_released_iff {A : Restriction T (Op V) Op.Res (Choice B V) (World B V)} {state : B.State}
    {c : Config T (Op V) Op.Res (World B V) (Reply V)}
    (run : Reaches (machine B V T I) A (initial I X C tasks state) c) {p q : History V T}
    {call : Call V} {result : Except String V} {reply : Except String (Action V)}
    (elected : ⟨t, .tryBeginLoad d, .leader⟩ :: p <:+ c.history)
    (left : ⟨t, .leave (.after call (.query result)) reply, ()⟩ :: q <:+ c.history) :
    (∀ d', c.world.singleflight.map.lookup d' ≠ some (elections p)) ↔
      ComesTo I X C call d (q.own t) ∨ ∃ u r, u ≠ t ∧ ⟨u, .removeLoad d, ()⟩ :: r <:+ c.history ∧
        ⟨t, .tryBeginLoad d, .leader⟩ :: p <:+ r := by
  obtain ⟨law, tracked, -⟩ := reaches_tracked run
  have bracketed := reaches_bracketed run
  have past : q <:+ c.history := (List.suffix_cons _ _).trans left
  have settled : Settled I X C call (q.own t) := law _ _ left
  simp only [tracked.entries]
  rw [gone_iff_removed tracked.found elected]
  constructor
  · rintro ⟨u, r, hr, since⟩
    by_cases own : u = t
    · subst own
      left
      have ended :
          (phase (History.own (⟨u, .leave (.after call (.query result)) reply, ()⟩ :: q) u)).Final := by
        rw [History.own_cons_self]
        trivial
      have removed := History.mem_own.mpr (hr.subset List.mem_cons_self)
      rw [own_of_final bracketed left ended, History.own_cons_self] at removed
      cases removed with
      | tail _ removed => exact settled.own d removed
    · exact .inr ⟨u, r, own, hr, since⟩
  · rintro (comes | ⟨u, r, -, hr, since⟩)
    · rcases settled.completes d comes with ⟨success, nothing⟩ | removed
      · obtain ⟨r, hr⟩ := History.exists_suffix_of_mem_own nothing
        have since := later_of_completed law elected rfl (hr.trans past)
        have free : false = (holder r d).isSome := tracked.found _ _ (hr.trans past)
        by_contra kept
        have within : r <:+ c.history := (List.suffix_cons _ _).trans (hr.trans past)
        rw [holder_of_not_removed (tracked.found.suffix within) since
          fun removed => kept (removed.mono within)] at free
        cases free
      · obtain ⟨r, hr⟩ := History.exists_suffix_of_mem_own removed
        exact ⟨t, r, hr.trans past, later_of_completed law elected rfl (hr.trans past)⟩
    · exact ⟨u, r, hr, since⟩

end
instance {B : CacheBackend} {V T : Type} [DecidableEq V] [DecidableEq T] (t : T) (op : Op V)
    (ch : Choice B V) (w : World B V) (h : History V T) : Decidable (LeadersComplete t op ch w h) := by
  unfold LeadersComplete CompletesAsLeader
  split <;> infer_instance

/-- The digest of the sample query. -/
def sampleDigest : String :=
  match CacheKey.build Sample.externals
    (Sample.interceptor.buildKeyInput Sample.codec (Sample.call 0 "SELECT 1")) 0 with
  | .ok key => key.digest
  | .error _ => ""

/-- One query leads, another one follows it, and the leader completes its load. -/
theorem leader_completes :
    ∃ d : Sample.State (Fin 2),
      ⟨1, .tryBeginLoad sampleDigest, .follower 0⟩ ∈ d.history ∧
      ⟨0, .finishLoad sampleDigest true, true⟩ ∈ d.history ∧ OwnLoads d := by
  obtain ⟨d, run, seen⟩ := play_observed (M := Sample.steps (Fin 2) Sample.interceptor)
    (A := LeadersComplete)
    (c := Sample.start Sample.interceptor fun t => Sample.select (Sample.call t.val "SELECT 1"))
    (List.replicate 7 (0, Sample.reading 7) ++ List.replicate 6 (1, Sample.reading 8) ++
      List.replicate 5 (0, Sample.reading 7))
    (fun d => decide (⟨1, .tryBeginLoad sampleDigest, .follower 0⟩ ∈ d.history) &&
      decide (⟨0, .finishLoad sampleDigest true, true⟩ ∈ d.history))
    (by decide +kernel)
  simp only [Bool.and_eq_true, decide_eq_true_eq] at seen
  exact ⟨d, seen.1, seen.2, loads_owned run⟩

/-- A query in a transaction, which never asks for election, completes the load of another query;
a third one is elected before the first has come to its `after`. -/
theorem load_taken_over :
    ∃ (d : Sample.State (Fin 3)) (q : History UInt64 (Fin 3)),
      Reaches (Sample.steps (Fin 3) Sample.interceptor) Restriction.none
        (Sample.start Sample.interceptor fun t => Sample.select
          (if t = 1 then Sample.txCall 9 "SELECT 1" else Sample.call t.val "SELECT 1")) d ∧
      ⟨2, .tryBeginLoad sampleDigest, .leader⟩ :: q <:+ d.history ∧
      ⟨0, .tryBeginLoad sampleDigest, .leader⟩ ∈ q ∧
      (∀ call result, ⟨0, .enter (.after call (.query result)), ()⟩ ∉ q) ∧
      ⟨1, .finishLoad sampleDigest true, true⟩ ∈ q ∧ ⟨1, .removeLoad sampleDigest, ()⟩ ∈ q ∧
      ∀ digest role, ⟨1, .tryBeginLoad digest, role⟩ ∉ q := by
  obtain ⟨d, run, seen⟩ := play_observed (M := Sample.steps (Fin 3) Sample.interceptor)
    (A := Restriction.none)
    (c := Sample.start Sample.interceptor fun t => Sample.select
      (if t = 1 then Sample.txCall 9 "SELECT 1" else Sample.call t.val "SELECT 1"))
    (List.replicate 7 (0, Sample.reading 7) ++ List.replicate 7 (1, Sample.reading 8) ++
      List.replicate 6 (2, Sample.reading 9))
    (fun d => decide (d.history.head? = some ⟨2, .tryBeginLoad sampleDigest, .leader⟩) &&
      decide (⟨0, .tryBeginLoad sampleDigest, .leader⟩ ∈ d.history.tail) &&
      decide (∀ e ∈ d.history.tail, e.task = 0 → e.op.handedOver = none) &&
      decide (⟨1, .finishLoad sampleDigest true, true⟩ ∈ d.history.tail) &&
      decide (⟨1, .removeLoad sampleDigest, ()⟩ ∈ d.history.tail) &&
      decide (∀ e ∈ d.history.tail, e.task = 1 → e.op.candidate = none))
    (by decide +kernel)
  simp only [Bool.and_eq_true, decide_eq_true_eq] at seen
  obtain ⟨⟨⟨⟨⟨head, first⟩, pending⟩, found⟩, removed⟩, never⟩ := seen
  refine ⟨d, d.history.tail, run, History.suffix_of_head? head, first, fun call result entered => ?_,
    found, removed, fun digest role asked => ?_⟩
  · cases pending _ entered rfl
  · cases never _ asked rfl

/-- A query leads, and no load is left when its `after` has returned. -/
theorem load_released :
    ∃ (d : Sample.State (Fin 1)) (p q : History UInt64 (Fin 1)),
      ⟨0, .tryBeginLoad sampleDigest, .leader⟩ :: p <:+ d.history ∧
      ⟨0, .leave (.after (Sample.call 0 "SELECT 1") (.query (.ok 7))) (.ok .next), ()⟩ :: q <:+
        d.history ∧
      ∀ d', d.world.singleflight.map.lookup d' ≠ some (elections p) := by
  obtain ⟨d, run, seen⟩ := play_observed (M := Sample.steps (Fin 1) Sample.interceptor)
    (A := Restriction.none)
    (c := Sample.start Sample.interceptor fun _ => Sample.select (Sample.call 0 "SELECT 1"))
    (List.replicate 19 (0, Sample.reading 7))
    (fun d => decide (d.history.head? =
        some ⟨0, .leave (.after (Sample.call 0 "SELECT 1") (.query (.ok 7))) (.ok .next), ()⟩) &&
      decide (⟨0, .tryBeginLoad sampleDigest, .leader⟩ ∈ d.history) &&
      decide (lastGeneration (History.own d.history.tail 0) = some (.ok 0)))
    (by decide +kernel)
  simp only [Bool.and_eq_true, decide_eq_true_eq] at seen
  obtain ⟨⟨head, lead⟩, read⟩ := seen
  obtain ⟨p, hp⟩ := History.exists_suffix_of_mem lead
  have left := History.suffix_of_head? head
  have parsed : ∃ metadata, SqlMetadata.parse Sample.externals.parser
      (buildKeyInput Sample.interceptor Sample.codec (Sample.call 0 "SELECT 1")).sql = .ok metadata :=
    ⟨_, rfl⟩
  obtain ⟨metadata, parsed⟩ := parsed
  obtain ⟨key, built⟩ := CacheKey.build_of_parse parsed 0
  have digest : key.digest = sampleDigest := by
    rw [sampleDigest, built]
  have comes : ComesTo Sample.interceptor Sample.externals Sample.codec (Sample.call 0 "SELECT 1")
      sampleDigest (History.own d.history.tail 0) :=
    ⟨by decide +kernel, 0, key, read, built, digest⟩
  exact ⟨d, p, d.history.tail, hp, left, (load_released_iff run hp left).mpr (.inl comes)⟩

/-- Another statement raises the generation between the election and the `after` of a query, whose
load is never removed. -/
theorem load_left_behind :
    ∃ d : Sample.State (Fin 2),
      Reaches (Sample.steps (Fin 2) Sample.interceptor) Restriction.none
        (Sample.start Sample.interceptor fun t =>
          if t = 1 then Sample.dml (Sample.call 1 "UPDATE t SET x = 1")
          else Sample.select (Sample.call 0 "SELECT 1")) d ∧
      ⟨0, .tryBeginLoad sampleDigest, .leader⟩ ∈ d.history ∧
      ⟨0, .leave (.after (Sample.call 0 "SELECT 1") (.query (.ok 7))) (.ok .next), ()⟩ ∈ d.history ∧
      (∀ t, d.returned t ≠ none) ∧
      d.world.singleflight.map.lookup sampleDigest = some 0 := by
  obtain ⟨d, run, seen⟩ := play_observed (M := Sample.steps (Fin 2) Sample.interceptor)
    (A := Restriction.none)
    (c := Sample.start Sample.interceptor fun t =>
      if t = 1 then Sample.dml (Sample.call 1 "UPDATE t SET x = 1")
      else Sample.select (Sample.call 0 "SELECT 1"))
    (List.replicate 7 (0, Sample.reading 7) ++ List.replicate 8 (1, Sample.reading 7) ++
      List.replicate 11 (0, Sample.reading 7))
    (fun d => decide (⟨0, .tryBeginLoad sampleDigest, .leader⟩ ∈ d.history) &&
      decide (⟨0, .leave (.after (Sample.call 0 "SELECT 1") (.query (.ok 7))) (.ok .next), ()⟩ ∈
        d.history) &&
      decide (∀ t, d.returned t ≠ none) &&
      decide (d.world.singleflight.map.lookup sampleDigest = some 0))
    (by decide +kernel)
  simp only [Bool.and_eq_true, decide_eq_true_eq] at seen
  obtain ⟨⟨⟨lead, left⟩, returned⟩, stays⟩ := seen
  exact ⟨d, run, lead, left, returned, stays⟩

end RbatisCache.RbatisInterceptor
