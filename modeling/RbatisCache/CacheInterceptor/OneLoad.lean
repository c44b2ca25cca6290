import RbatisCache.CacheInterceptor.Flights
import RbatisCache.Interleaving.Progress
import RbatisCache.Spi.LocalBackend
import RbatisCache.Spi.Sample

/-! The flight lock is effective: when nothing is lost, the calls for one key load once. -/
namespace RbatisCache.CacheInterceptor
open Interleaving Interleaving.Prog

section
variable {B : CacheBackend} {P T : Type} [DecidableEq T]

/-- No operation of the backend and no loader fails, payloads are not too large, and nothing
expires or is evicted. -/
def Lossless (X : Externals P) (policy : CachePolicy) (abs : B.State → Store) :
    Restriction T Op (Op.Res P) (Choice B P) (World B T) := fun _ op ch w _ =>
  match op with
  | .backend o => Store.Keeps o (B.perform o ch.backend w.backend).1 (abs w.backend)
      (abs (B.perform o ch.backend w.backend).2)
  | .nowMs => ∀ k bytes envelope, (abs w.backend).content k = some bytes →
      CacheEnvelope.decode X bytes = .ok envelope → ch.now < envelope.expiresAtMs
  | .databaseRead => ∃ p, ch.loaded = .ok p ∧ X.len p ≤ policy.maxValueSize
  | _ => True

/-- What the loaders have done. -/
def loaderEvents (h : History P T) : History P T :=
  h.filter fun e => e.op = .loaderStart ∨ e.op = .databaseRead

variable (X : Externals P) (policy : CachePolicy) (abs : B.State → Store) (key : CacheKey)

/-- The only load there is: ahead, under way or done. -/
inductive Situation (w : World B T) (h : History P T) : Prop
  | cold (content : (abs w.backend).content key.digest = none) (events : loaderEvents h = [])
  | started {t : T} {f : FlightId} (stage : stages h t = .inside key.digest f .started)
      (content : (abs w.backend).content key.digest = none)
      (events : loaderEvents h = [⟨t, .loaderStart, ()⟩])
  | loaded {t : T} {f : FlightId} {p : P} (stage : stages h t = .inside key.digest f .loaded)
      (content : (abs w.backend).content key.digest = none)
      (size : X.len p ≤ policy.maxValueSize)
      (events : loaderEvents h = [⟨t, .databaseRead, .ok p⟩, ⟨t, .loaderStart, ()⟩])
  | filled {t : T} {p : P} {bytes : Bytes} {now : UInt64}
      (content : (abs w.backend).content key.digest = some bytes)
      (decoded : CacheEnvelope.decode X bytes = .ok (CacheEnvelope.new key p policy.ttl now))
      (size : X.len p ≤ policy.maxValueSize)
      (events : loaderEvents h = [⟨t, .databaseRead, .ok p⟩, ⟨t, .loaderStart, ()⟩])

/-- What calls at these stages have seen of the key in a lossless run. -/
structure Lookups (counter : String → UInt64) (σ : T → Stage) (w : World B T) (h : History P T) :
    Prop where
  tracks : Tracks w σ
  counters : (abs w.backend).counter = counter
  generations : ∀ t n r, ⟨t, .backend (.generation n), r⟩ ∈ h → r = .ok (counter n)
  served : ∀ t r, ⟨t, .backend (.get key.digest), r⟩ ∈ h → ∃ found, r = .ok found ∧
    ∀ bytes, found = some bytes → (abs w.backend).content key.digest = some bytes
  clock : h.Always fun e s => ∀ t now bytes envelope rest, e = ⟨t, .nowMs, now⟩ →
    s.own t = ⟨.backend (.get key.digest), .ok (some bytes)⟩ :: rest →
    CacheEnvelope.decode X bytes = .ok envelope → now < envelope.expiresAtMs
  absent : ∀ t f, σ t = .inside key.digest f .locked →
    (h.own t).head? = some ⟨.backend (.get key.digest), .ok none⟩ →
    (abs w.backend).content key.digest = none
  missing : ∀ t f p, σ t = .inside key.digest f p → p ≠ .locked → p ≠ .filled →
    (abs w.backend).content key.digest = none

/-- The invariant of the runs in which all calls are for one key. -/
structure OneLoad (counter : String → UInt64) (w : World B T) (h : History P T) : Prop
    extends Lookups X abs key counter (stages h) w h where
  situation : Situation X policy abs key w h

variable {X policy abs key} {counter : String → UInt64} {w u : World B T} {h : History P T}
variable {t : T} {op : Op} {r : op.Res P} {σ ρ : T → Stage}

omit [DecidableEq T] in
private theorem loaderEvents_cons_of_not (h1 : op ≠ .loaderStart) (h2 : op ≠ .databaseRead) :
    loaderEvents (⟨t, op, r⟩ :: h) = loaderEvents h := by
  simp [loaderEvents, h1, h2]

private theorem stages_cons_self : stages (⟨t, op, r⟩ :: h) t = (stages h t).next op r := by
  rw [stages_cons, Function.update_self]

private theorem stages_cons_ne {s : T} (hs : s ≠ t) : stages (⟨t, op, r⟩ :: h) s = stages h s := by
  rw [stages_cons, Function.update_of_ne hs]

private theorem stages_cons_still (still : (stages h t).next op r = stages h t) :
    stages (⟨t, op, r⟩ :: h) = stages h := by
  rw [stages_cons, still, Function.update_eq_self]

/-- Steps that are no part of the load. -/
theorem Situation.frame (hi : Situation X policy abs key w h)
    (content : (abs u.backend).content key.digest = (abs w.backend).content key.digest)
    (h1 : op ≠ .loaderStart) (h2 : op ≠ .databaseRead)
    (stage : (stages h t).next op r = stages h t ∨
      ∀ d f p, stages h t = .inside d f p → p ≠ .started ∧ p ≠ .loaded) :
    Situation X policy abs key u (⟨t, op, r⟩ :: h) := by
  have hstage {s : T} {f : FlightId} {p : Phase} (hs : stages h s = .inside key.digest f p)
      (hp : p = .started ∨ p = .loaded) :
      stages (⟨t, op, r⟩ :: h) s = .inside key.digest f p := by
    by_cases hst : s = t
    · subst hst
      rw [stages_cons_self]
      rcases stage with hsame | hnot
      · rw [hsame, hs]
      · rcases hp with rfl | rfl
        · exact absurd rfl (hnot _ _ _ hs).1
        · exact absurd rfl (hnot _ _ _ hs).2
    · rw [stages_cons_ne hst, hs]
  cases hi with
  | cold hc he =>
    exact .cold (content.trans hc) ((loaderEvents_cons_of_not h1 h2).trans he)
  | started hs hc he =>
    exact .started (hstage hs (.inl rfl)) (content.trans hc)
      ((loaderEvents_cons_of_not h1 h2).trans he)
  | loaded hs hc hl he =>
    exact .loaded (hstage hs (.inr rfl)) (content.trans hc) hl
      ((loaderEvents_cons_of_not h1 h2).trans he)
  | filled hc hd hl he =>
    exact .filled (content.trans hc) hd hl ((loaderEvents_cons_of_not h1 h2).trans he)

/-- Steps that leave the entry of the key alone. -/
theorem Lookups.frame (hi : Lookups X abs key counter σ w h) (tracks : Tracks u ρ)
    (others : ∀ s, s ≠ t → ρ s = σ s)
    (content : (abs u.backend).content key.digest = (abs w.backend).content key.digest)
    (counters : (abs u.backend).counter = counter)
    (generations : ∀ n q, (⟨op, r⟩ : Sigma (Op.Res P)) = ⟨.backend (.generation n), q⟩ →
      q = .ok (counter n))
    (served : ∀ q, (⟨op, r⟩ : Sigma (Op.Res P)) = ⟨.backend (.get key.digest), q⟩ →
      q = .ok ((abs w.backend).content key.digest))
    (clock : ∀ now bytes envelope rest, (⟨op, r⟩ : Sigma (Op.Res P)) = ⟨.nowMs, now⟩ →
      h.own t = ⟨.backend (.get key.digest), .ok (some bytes)⟩ :: rest →
      CacheEnvelope.decode X bytes = .ok envelope → now < envelope.expiresAtMs)
    (missing : ∀ f p, ρ t = .inside key.digest f p → p ≠ .locked → p ≠ .filled →
      (abs w.backend).content key.digest = none) :
    Lookups X abs key counter ρ u (⟨t, op, r⟩ :: h) where
  tracks := tracks
  counters := counters
  generations s n q hm := by
    rcases List.mem_cons.mp hm with he | hm
    · cases he
      exact generations n q rfl
    · exact hi.generations s n q hm
  served s q hm := by
    rw [content]
    rcases List.mem_cons.mp hm with he | hm
    · cases he
      exact ⟨_, served q rfl, fun _ => id⟩
    · exact hi.served s q hm
  clock := hi.clock.cons fun s now bytes envelope rest he => by
    cases he
    exact clock now bytes envelope rest rfl
  absent s f hs hh := by
    rw [content]
    by_cases hst : s = t
    · subst hst
      rw [History.own_cons_self, List.head?_cons, Option.some.injEq] at hh
      cases hh
      exact (Except.ok.inj (served _ rfl)).symm
    · rw [others s hst] at hs
      rw [History.own_cons_ne (Ne.symm hst)] at hh
      exact hi.absent s f hs hh
  missing s f p hs h1 h2 := by
    rw [content]
    by_cases hst : s = t
    · subst hst
      exact missing f p hs h1 h2
    · rw [others s hst] at hs
      exact hi.missing s f p hs h1 h2

theorem Lookups.generation (hi : Lookups X abs key counter σ w h) {n : String}
    {r : (BackendOp.generation n).Res} (tracks : Tracks u ρ) (still : ρ = σ)
    (keeps : Store.Keeps (.generation n) r (abs w.backend) (abs u.backend)) :
    Lookups X abs key counter ρ u (⟨t, .backend (.generation n), r⟩ :: h) := by
  subst still
  obtain ⟨hr, hs⟩ := keeps
  refine hi.frame tracks (fun _ _ => rfl) (by rw [hs]) (by rw [hs]; exact hi.counters) ?_ ?_ ?_
    (hi.missing t)
  · intro m q he
    cases he
    rw [← hi.counters]
    exact hr
  · intro q he
    cases he
  · intro now bytes envelope rest he
    cases he

theorem Lookups.get (hi : Lookups X abs key counter σ w h) {r : (BackendOp.get key.digest).Res}
    (tracks : Tracks u ρ) (still : ρ = σ)
    (keeps : Store.Keeps (.get key.digest) r (abs w.backend) (abs u.backend)) :
    Lookups X abs key counter ρ u (⟨t, .backend (.get key.digest), r⟩ :: h) := by
  subst still
  obtain ⟨hr, hs⟩ := keeps
  refine hi.frame tracks (fun _ _ => rfl) (by rw [hs]) (by rw [hs]; exact hi.counters) ?_ ?_ ?_
    (hi.missing t)
  · intro m q he
    cases he
  · intro q he
    cases he
    exact hr
  · intro now bytes envelope rest he
    cases he

theorem Lookups.nowMs (hi : Lookups X abs key counter σ w h) {now : UInt64}
    (tracks : Tracks w ρ) (still : ρ = σ)
    (valid : ∀ k bytes envelope, (abs w.backend).content k = some bytes →
      CacheEnvelope.decode X bytes = .ok envelope → now < envelope.expiresAtMs) :
    Lookups X abs key counter ρ w (⟨t, .nowMs, now⟩ :: h) := by
  subst still
  refine hi.frame tracks (fun _ _ => rfl) rfl hi.counters ?_ ?_ ?_ (hi.missing t)
  · intro m q he
    cases he
  · intro q he
    cases he
  · intro now' bytes envelope rest he ho hd
    cases he
    have hm : ⟨.backend (.get key.digest), .ok (some bytes)⟩ ∈ h.own t := by simp [ho]
    obtain ⟨found, hfound, hc⟩ := hi.served t _ (History.mem_own.mp hm)
    exact valid _ bytes envelope (hc bytes (Except.ok.inj hfound).symm) hd

/-- Operations that have nothing to do with the backend or the clock. -/
theorem Lookups.other (hi : Lookups X abs key counter σ w h) (tracks : Tracks u ρ)
    (others : ∀ s, s ≠ t → ρ s = σ s) (hb : u.backend = w.backend)
    (hop : ∀ o, op ≠ .backend o) (hnow : op ≠ .nowMs)
    (missing : ∀ f p, ρ t = .inside key.digest f p → p ≠ .locked → p ≠ .filled →
      (abs w.backend).content key.digest = none) :
    Lookups X abs key counter ρ u (⟨t, op, r⟩ :: h) := by
  refine hi.frame tracks others (by rw [hb]) (by rw [hb]; exact hi.counters) ?_ ?_ ?_ missing
  · intro n q he
    cases he
    exact absurd rfl (hop _)
  · intro q he
    cases he
    exact absurd rfl (hop _)
  · intro now bytes envelope rest he
    cases he
    exact absurd rfl hnow

/-- The call that fills the cache: nobody else is under the lock of the key. -/
theorem Lookups.put (hi : Lookups X abs key counter σ w h) {f : FlightId}
    (hs : σ t = .inside key.digest f .loaded) {bytes : Bytes} {ttl : Duration}
    {r : (BackendOp.put key.digest bytes ttl).Res} (tracks : Tracks u ρ)
    (others : ∀ s, s ≠ t → ρ s = σ s) (filled : ρ t = .inside key.digest f .filled)
    (put : abs u.backend = (abs w.backend).put key.digest bytes) :
    Lookups X abs key counter ρ u (⟨t, .backend (.put key.digest bytes ttl), r⟩ :: h) := by
  have none := hi.missing t f _ hs (by simp) (by simp)
  have alone {s : T} {g : FlightId} {q : Phase} (hst : s ≠ t)
      (hsg : ρ s = .inside key.digest g q) : False :=
    hst (hi.tracks.exclusive ((others s hst).symm.trans hsg) hs)
  refine ⟨tracks, ?_, ?_, ?_, ?_, ?_, ?_⟩
  · rw [put, Store.put_counter, hi.counters]
  · intro s n q hm
    rcases List.mem_cons.mp hm with he | hm
    · cases he
    · exact hi.generations s n q hm
  · intro s q hm
    rcases List.mem_cons.mp hm with he | hm
    · cases he
    · obtain ⟨found, hf, content⟩ := hi.served s q hm
      refine ⟨found, hf, fun b hb => ?_⟩
      rw [none] at content
      cases content b hb
  · refine hi.clock.cons fun s now b envelope rest he => ?_
    cases he
  · intro s g hsg _
    by_cases hst : s = t
    · subst hst
      rw [filled] at hsg
      cases hsg
    · exact (alone hst hsg).elim
  · intro s g q hsg hq hq'
    by_cases hst : s = t
    · subst hst
      rw [filled] at hsg
      cases hsg
      exact absurd rfl hq'
    · exact (alone hst hsg).elim

/-- A call for the key of the run. -/
structure SameKey (X : Externals P) (key : CacheKey) (counter : String → UInt64)
    (request : CacheRequest) : Prop where
  cacheable : request.Cacheable X
  built : CacheKey.build X request.key (counter request.key.nameSpace) = .ok key

variable {request : CacheRequest}

theorem Lookups.key_eq (hi : Lookups X abs key counter σ w h)
    (same : SameKey X key counter request) {g : UInt64} {key' : CacheKey}
    (hk : Keyed X request.key g key' (h.own t)) : key' = key := by
  have hg := hi.generations t _ _ (History.mem_own.mp (hk.read.subset List.mem_cons_self))
  have hb := hk.built
  rw [Except.ok.inj hg, same.built] at hb
  exact (Except.ok.inj hb).symm

theorem Lookups.not_unkeyed (hi : Lookups X abs key counter σ w h)
    (same : SameKey X key counter request) : ¬ Unkeyed X request (h.own t) := by
  intro hu
  rcases hu same.cacheable with ⟨n, e, he⟩ | ⟨g, e, he⟩
  · cases hi.generations t n _ (History.mem_own.mp he)
  · obtain ⟨metadata, hm, -⟩ := same.cacheable
    obtain ⟨key', hb⟩ := CacheKey.build_of_parse hm g
    rw [hb] at he
    cases he

/-- Whatever a call has read is the read of the situation. -/
theorem Situation.of_read (hi : Situation X policy abs key w h) {q : (Op.databaseRead).Res P}
    (hq : ⟨t, .databaseRead, q⟩ ∈ h) : ∃ p, q = .ok p ∧ X.len p ≤ policy.maxValueSize ∧
      loaderEvents h = [⟨t, .databaseRead, .ok p⟩, ⟨t, .loaderStart, ()⟩] := by
  have hm : ⟨t, .databaseRead, q⟩ ∈ loaderEvents h := List.mem_filter.mpr ⟨hq, by simp⟩
  have hread {s : T} {p : P} (hsize : X.len p ≤ policy.maxValueSize)
      (he : loaderEvents h = [⟨s, .databaseRead, .ok p⟩, ⟨s, .loaderStart, ()⟩]) :
      ∃ p, q = .ok p ∧ X.len p ≤ policy.maxValueSize ∧
        loaderEvents h = [⟨t, .databaseRead, .ok p⟩, ⟨t, .loaderStart, ()⟩] := by
    simp only [he, List.mem_cons, Event.mk.injEq, heq_eq_eq, true_and, reduceCtorEq, false_and,
      and_false, List.not_mem_nil, or_false] at hm
    obtain ⟨rfl, rfl⟩ := hm
    exact ⟨p, rfl, hsize, he⟩
  cases hi with
  | cold _ he => simp [he] at hm
  | started _ _ he => simp [he] at hm
  | loaded _ _ size he => exact hread size he
  | filled _ _ size he => exact hread size he

omit [DecidableEq T] in
/-- A call whose read can be stored stores it. -/
theorem stored_of_read {done : Done P}
    (encodes : ∀ p now, X.len p ≤ policy.maxValueSize → ∃ bytes,
      (CacheEnvelope.new key p policy.ttl now).encode X = .ok bytes)
    (reads : ∀ q, ⟨.databaseRead, q⟩ ∈ done → ∃ p, q = .ok p ∧ X.len p ≤ policy.maxValueSize) :
    ¬ NotStored X policy key done := by
  intro hn
  cases hn with
  | failed read =>
    obtain ⟨p, hp, -⟩ := reads _ read
    cases hp
  | oversized read large =>
    obtain ⟨p, hp, size⟩ := reads _ read
    cases hp
    omega
  | unencodable read encoded =>
    obtain ⟨p, hp, size⟩ := reads _ read
    cases hp
    obtain ⟨bytes, hb⟩ := encodes _ _ size
    rw [encoded] at hb
    cases hb

/-- Everything that is loaded can be stored. -/
theorem Situation.stored (hi : Situation X policy abs key w h)
    (encodes : ∀ p now, X.len p ≤ policy.maxValueSize → ∃ bytes,
      (CacheEnvelope.new key p policy.ttl now).encode X = .ok bytes) :
    ¬ NotStored X policy key (h.own t) := by
  refine stored_of_read encodes fun q hq => ?_
  obtain ⟨p, hp, size, -⟩ := hi.of_read (History.mem_own.mp hq)
  exact ⟨p, hp, size⟩

/-- Operations that neither the entry of the key nor the load depends on. -/
theorem OneLoad.other (hi : OneLoad X policy abs key counter w h)
    (tracks : Tracks u (stages (⟨t, op, r⟩ :: h))) (hb : u.backend = w.backend)
    (hop : ∀ o, op ≠ .backend o) (hnow : op ≠ .nowMs) (h1 : op ≠ .loaderStart)
    (h2 : op ≠ .databaseRead)
    (stage : (stages h t).next op r = stages h t ∨
      (∀ d f p, stages h t = .inside d f p → p ≠ .started ∧ p ≠ .loaded) ∧
      ∀ f p, (stages h t).next op r = .inside key.digest f p → p ≠ .locked → p ≠ .filled →
        (abs w.backend).content key.digest = none) :
    OneLoad X policy abs key counter u (⟨t, op, r⟩ :: h) := by
  refine .mk (hi.toLookups.other tracks (fun s hs => stages_cons_ne hs) hb hop hnow ?_)
    (hi.situation.frame (by rw [hb]) h1 h2 (stage.imp id And.left))
  rw [stages_cons_self]
  rcases stage with hsame | hnot
  · rw [hsame]
    exact hi.missing t
  · exact hnot.2

theorem OneLoad.generation (hi : OneLoad X policy abs key counter w h) {n : String}
    {r : (BackendOp.generation n).Res}
    (tracks : Tracks u (stages (⟨t, .backend (.generation n), r⟩ :: h)))
    (keeps : Store.Keeps (.generation n) r (abs w.backend) (abs u.backend)) :
    OneLoad X policy abs key counter u (⟨t, .backend (.generation n), r⟩ :: h) := by
  exact .mk (hi.toLookups.generation tracks (stages_cons_still rfl) keeps)
    (hi.situation.frame (by rw [keeps.2]) (by simp) (by simp) (.inl rfl))

theorem OneLoad.get (hi : OneLoad X policy abs key counter w h) {r : (BackendOp.get key.digest).Res}
    (tracks : Tracks u (stages (⟨t, .backend (.get key.digest), r⟩ :: h)))
    (keeps : Store.Keeps (.get key.digest) r (abs w.backend) (abs u.backend)) :
    OneLoad X policy abs key counter u (⟨t, .backend (.get key.digest), r⟩ :: h) := by
  exact .mk (hi.toLookups.get tracks (stages_cons_still rfl) keeps)
    (hi.situation.frame (by rw [keeps.2]) (by simp) (by simp) (.inl rfl))

theorem OneLoad.nowMs (hi : OneLoad X policy abs key counter w h) {now : UInt64}
    (tracks : Tracks w (stages (⟨t, .nowMs, now⟩ :: h)))
    (valid : ∀ k bytes envelope, (abs w.backend).content k = some bytes →
      CacheEnvelope.decode X bytes = .ok envelope → now < envelope.expiresAtMs) :
    OneLoad X policy abs key counter w (⟨t, .nowMs, now⟩ :: h) := by
  exact .mk (hi.toLookups.nowMs tracks (stages_cons_still rfl) valid)
    (hi.situation.frame rfl (by simp) (by simp) (.inl rfl))

/-- While a call is at its load, the situation is that load. -/
theorem OneLoad.situation_of_started (hi : OneLoad X policy abs key counter w h) {f : FlightId}
    (hs : stages h t = .inside key.digest f .started) :
    loaderEvents h = [⟨t, .loaderStart, ()⟩] := by
  have hc := hi.missing t f _ hs (by simp) (by simp)
  cases hi.situation with
  | cold _ he =>
    have hm := History.mem_own.mp (loaderStart_of_started hs)
    have : ⟨t, .loaderStart, ()⟩ ∈ loaderEvents h := List.mem_filter.mpr ⟨hm, by simp⟩
    simp [he] at this
  | started hs' _ he =>
    rw [hi.tracks.exclusive hs hs']
    exact he
  | loaded hs' _ _ _ =>
    obtain rfl := hi.tracks.exclusive hs hs'
    rw [hs] at hs'
    cases hs'
  | filled hc' _ _ _ =>
    rw [hc] at hc'
    cases hc'

theorem OneLoad.loaderStart (hi : OneLoad X policy abs key counter w h) {f : FlightId}
    (hs : stages h t = .inside key.digest f .missed)
    (tracks : Tracks w (stages (⟨t, .loaderStart, ()⟩ :: h))) :
    OneLoad X policy abs key counter w (⟨t, .loaderStart, ()⟩ :: h) := by
  have hc := hi.missing t f _ hs (by simp) (by simp)
  refine .mk (hi.toLookups.other tracks (fun s hs => stages_cons_ne hs) rfl (by simp)
    (by simp) fun _ _ _ _ _ => hc) ?_
  have hnew : stages (⟨t, .loaderStart, ()⟩ :: h) t = .inside key.digest f .started := by
    rw [stages_cons_self, hs]
    rfl
  refine .started hnew hc ?_
  have hcold : loaderEvents h = [] := by
    cases hi.situation with
    | cold _ he => exact he
    | started hs' _ _ =>
      obtain rfl := hi.tracks.exclusive hs hs'
      rw [hs] at hs'
      cases hs'
    | loaded hs' _ _ _ =>
      obtain rfl := hi.tracks.exclusive hs hs'
      rw [hs] at hs'
      cases hs'
    | filled hc' _ _ _ =>
      rw [hc] at hc'
      cases hc'
  simp only [loaderEvents] at hcold ⊢
  rw [List.filter_cons_of_pos (by simp), hcold]

theorem OneLoad.databaseRead (hi : OneLoad X policy abs key counter w h) {f : FlightId} {p : P}
    (hs : stages h t = .inside key.digest f .started) (size : X.len p ≤ policy.maxValueSize)
    (tracks : Tracks w (stages (⟨t, .databaseRead, .ok p⟩ :: h))) :
    OneLoad X policy abs key counter w (⟨t, .databaseRead, .ok p⟩ :: h) := by
  have hc := hi.missing t f _ hs (by simp) (by simp)
  refine .mk (hi.toLookups.other tracks (fun s hs => stages_cons_ne hs) rfl (by simp)
    (by simp) fun _ _ _ _ _ => hc) ?_
  have hnew : stages (⟨t, .databaseRead, .ok p⟩ :: h) t = .inside key.digest f .loaded := by
    rw [stages_cons_self, hs]
    rfl
  refine .loaded hnew hc size ?_
  have hstarted := hi.situation_of_started hs
  simp only [loaderEvents] at hstarted ⊢
  rw [List.filter_cons_of_pos (by simp), hstarted]

/-- What the cache holds under the key can be decoded and is the payload that was read. -/
theorem Situation.decoded (hi : Situation X policy abs key w h) {bytes : Bytes}
    (hb : (abs w.backend).content key.digest = some bytes) : ∃ t p now,
      CacheEnvelope.decode X bytes = .ok (CacheEnvelope.new key p policy.ttl now) ∧
      loaderEvents h = [⟨t, .databaseRead, .ok p⟩, ⟨t, .loaderStart, ()⟩] := by
  cases hi with
  | cold hc _ => simp [hb] at hc
  | started _ hc _ => simp [hb] at hc
  | loaded _ hc _ _ => simp [hb] at hc
  | filled hc hd _ he =>
    rw [hb] at hc
    cases hc
    exact ⟨_, _, _, hd, he⟩

/-- A check under the flight lock that finds nothing has found nothing in the cache. -/
theorem Lookups.missed (hi : Lookups X abs key counter σ w h) {ttl : Duration}
    (decodes : ∀ bytes, (abs w.backend).content key.digest = some bytes → ∃ p now,
      CacheEnvelope.decode X bytes = .ok (CacheEnvelope.new key p ttl now)) {f : FlightId}
    (hs : σ t = .inside key.digest f .locked) (hm : Missed X key (h.own t)) :
    (abs w.backend).content key.digest = none := by
  have hserved {q : (BackendOp.get key.digest).Res}
      (hq : ⟨.backend (.get key.digest), q⟩ ∈ h.own t) := hi.served t q (History.mem_own.mp hq)
  generalize ho : h.own t = own at hm
  cases hm with
  | absent done => exact hi.absent t f hs (by rw [ho]; rfl)
  | failed e done =>
    obtain ⟨found, hf, -⟩ := hserved (q := .error e) (by simp [ho])
    cases hf
  | @undecodable bytes e done decoded =>
    obtain ⟨found, hf, hc⟩ := hserved (q := .ok (some bytes)) (by simp [ho])
    obtain ⟨_, _, hd⟩ := decodes bytes (hc bytes (Except.ok.inj hf).symm)
    rw [decoded] at hd
    cases hd
  | @stale bytes envelope now done decoded fresh =>
    obtain ⟨found, hf, hc⟩ := hserved (q := .ok (some bytes)) (by simp [ho])
    obtain ⟨_, _, hd⟩ := decodes bytes (hc bytes (Except.ok.inj hf).symm)
    obtain ⟨s, hsuf, hos⟩ := History.exists_suffix_of_own (show _ = [] ++ _ from ho)
    have hlt := hi.clock _ s hsuf t now bytes envelope done rfl hos decoded
    rw [decoded] at hd
    cases hd
    rw [CacheEnvelope.new_isFresh hlt] at fresh
    cases fresh

theorem OneLoad.missed (hi : OneLoad X policy abs key counter w h) {f : FlightId}
    (hs : stages h t = .inside key.digest f .locked) (hm : Missed X key (h.own t)) :
    (abs w.backend).content key.digest = none := by
  have decodes (bytes : Bytes) (hb : (abs w.backend).content key.digest = some bytes) :
      ∃ p now, CacheEnvelope.decode X bytes = .ok (CacheEnvelope.new key p policy.ttl now) := by
    obtain ⟨_, p, now, decoded, -⟩ := hi.situation.decoded hb
    exact ⟨p, now, decoded⟩
  exact hi.toLookups.missed decodes hs hm

theorem OneLoad.put (hi : OneLoad X policy abs key counter w h) (codec : X.RoundTrips)
    {f : FlightId} (hs : stages h t = .inside key.digest f .loaded) {p : P} {now : UInt64}
    {bytes : Bytes} {ttl : Duration} {r : (BackendOp.put key.digest bytes ttl).Res}
    (read : ⟨.databaseRead, .ok p⟩ ∈ h.own t)
    (encoded : (CacheEnvelope.new key p policy.ttl now).encode X = .ok bytes)
    (tracks : Tracks u (stages (⟨t, .backend (.put key.digest bytes ttl), r⟩ :: h)))
    (keeps : Store.Keeps (.put key.digest bytes ttl) r (abs w.backend) (abs u.backend)) :
    OneLoad X policy abs key counter u (⟨t, .backend (.put key.digest bytes ttl), r⟩ :: h) := by
  obtain ⟨-, hk⟩ := keeps
  obtain ⟨p', hp', size, hevents⟩ := hi.situation.of_read (History.mem_own.mp read)
  cases hp'
  refine .mk (hi.toLookups.put hs tracks (fun s hs => stages_cons_ne hs) ?_ hk) ?_
  · rw [stages_cons_self, hs]
    rfl
  · have hcontent : (abs u.backend).content key.digest = some bytes := by
      rw [hk, Store.put_content_self]
    refine .filled (t := t) hcontent (CacheEnvelope.decode_encode codec encoded) size ?_
    rw [loaderEvents_cons_of_not (by simp) (by simp), hevents]

/-- Operations of a call that is not under its lock and does not get further than into it. -/
theorem OneLoad.away (hi : OneLoad X policy abs key counter w h)
    (tracks : Tracks u (stages (⟨t, op, r⟩ :: h))) (hb : u.backend = w.backend)
    (hop : ∀ o, op ≠ .backend o) (hnow : op ≠ .nowMs) (h1 : op ≠ .loaderStart)
    (h2 : op ≠ .databaseRead) (before : ∀ d f p, stages h t ≠ .inside d f p)
    (after : ∀ f p, (stages h t).next op r = .inside key.digest f p → p = .locked) :
    OneLoad X policy abs key counter u (⟨t, op, r⟩ :: h) :=
  hi.other tracks hb hop hnow h1 h2 (.inr ⟨fun d f p hs => absurd hs (before d f p),
    fun f p hs hp => absurd (after f p hs) hp⟩)

/-- A call that is about to load is without a flight, or it has looked and missed under its lock. -/
theorem OneLoad.recordLoad (hi : OneLoad X policy abs key counter w h)
    (same : SameKey X key counter request)
    (tracks : Tracks u (stages (⟨t, .record .load, ()⟩ :: h))) (hb : u.backend = w.backend)
    (hr : callRule X policy request (h.own t) (.record .load)) :
    OneLoad X policy abs key counter u (⟨t, .record .load, ()⟩ :: h) := by
  refine hi.other tracks hb (by simp) (by simp) (by simp) (by simp) ?_
  rcases hr with hs | ⟨g, key', f, hk, hs, hmiss⟩
  · left
    rw [show stages h t = .outside from hs]
    rfl
  · right
    obtain rfl := hi.toLookups.key_eq same hk
    have hs : stages h t = .inside key'.digest f .locked := hs
    refine ⟨fun d g p hp => ?_, fun g p _ _ _ => hi.missed hs hmiss⟩
    rw [hs] at hp
    cases hp
    simp

/-- A call does not give up its lock between its load and the write. -/
theorem OneLoad.unlock (hi : OneLoad X policy abs key counter w h)
    (same : SameKey X key counter request)
    (encodes : ∀ p now, X.len p ≤ policy.maxValueSize → ∃ bytes,
      (CacheEnvelope.new key p policy.ttl now).encode X = .ok bytes) {f : FlightId}
    (tracks : Tracks u (stages (⟨t, .unlock f, ()⟩ :: h))) (hb : u.backend = w.backend)
    (hr : callRule X policy request (h.own t) (.unlock f)) :
    OneLoad X policy abs key counter u (⟨t, .unlock f, ()⟩ :: h) := by
  obtain ⟨g, key', phase, hk, hs, hphase⟩ := hr
  obtain rfl := hi.toLookups.key_eq same hk
  have hs : stages h t = .inside key'.digest f phase := hs
  refine hi.other tracks hb (by simp) (by simp) (by simp) (by simp) (.inr ⟨?_, ?_⟩)
  · intro d e p hp
    rw [hs] at hp
    cases hp
    rcases hphase with rfl | rfl | ⟨rfl, hn⟩
    · simp
    · simp
    · exact absurd hn (hi.situation.stored encodes)
  · intro e p hp
    rw [hs] at hp
    cases hp

/-- Every step of a call for the key in a lossless run. -/
theorem OneLoad.step (hi : OneLoad X policy abs key counter w h)
    (same : SameKey X key counter request) (codec : X.RoundTrips)
    (encodes : ∀ p now, X.len p ≤ policy.maxValueSize → ∃ bytes,
      (CacheEnvelope.new key p policy.ttl now).encode X = .ok bytes)
    {ch : Choice B P} (hr : callRule X policy request (h.own t) op)
    (ha : Lossless X policy abs t op ch w h)
    (hm : (machine B P T).perform t op ch w = some (r, u)) :
    OneLoad X policy abs key counter u (⟨t, op, r⟩ :: h) := by
  have tracks := hi.tracks.step
    (Task.admits (show (Task.getOrLoad request).rule X policy (h.own t) op from hr)) hm
  match op with
  | .backend (.generation n) =>
    cases hm
    exact hi.generation tracks ha
  | .backend (.get k) =>
    obtain ⟨g, key', hk, rfl⟩ := hr
    obtain rfl := hi.toLookups.key_eq same hk
    cases hm
    exact hi.get tracks ha
  | .backend (.put k v ttl) =>
    obtain ⟨g, key', p, now, hk, rfl, read, encoded, f, hs⟩ := hr
    obtain rfl := hi.toLookups.key_eq same hk
    cases hm
    exact hi.put codec hs read encoded tracks ha
  | .backend (.bumpGeneration n) => exact hr.elim
  | .databaseWrite => exact hr.elim
  | .nowMs =>
    cases hm
    exact hi.nowMs tracks ha
  | .loaderStart =>
    cases hm
    rcases hr with ⟨-, hu⟩ | ⟨g, key', f, hk, hs⟩
    · exact absurd hu (hi.toLookups.not_unkeyed same)
    · obtain rfl := hi.toLookups.key_eq same hk
      exact hi.loaderStart hs tracks
  | .databaseRead =>
    cases hm
    obtain ⟨p, hp, size⟩ := ha
    rw [hp] at tracks ⊢
    rcases hr with ⟨-, hu⟩ | ⟨g, key', f, hk, hs⟩
    · exact absurd hu (hi.toLookups.not_unkeyed same)
    · obtain rfl := hi.toLookups.key_eq same hk
      exact hi.databaseRead hs size tracks
  | .record .load =>
    cases hm
    exact hi.recordLoad same tracks rfl hr
  | .record .hit | .record .miss | .record .bypass | .record .backendError
  | .record .invalidation | .loaderFinish =>
    cases hm
    exact hi.other tracks rfl (by simp) (by simp) (by simp) (by simp) (.inl rfl)
  | .unlock f => exact hi.unlock same encodes tracks (backend_of_perform (by simp) hm) hr
  | .flightsEntry d =>
    have hs : stages h t = .outside := hr.1
    refine hi.away tracks (backend_of_perform (by simp) hm) (by simp) (by simp) (by simp)
      (by simp) ?_ ?_ <;> rw [hs] <;> nofun
  | .lock f =>
    obtain ⟨d, hs⟩ := hr
    have hs : stages h t = .waiting d f := hs
    refine hi.away tracks (backend_of_perform (by simp) hm) (by simp) (by simp) (by simp)
      (by simp) ?_ ?_
    · rw [hs]
      nofun
    · intro e p hp
      rw [hs] at hp
      cases hp
      rfl
  | .releaseFlight d f =>
    have hs : stages h t = .unlocked d f := hr
    refine hi.away tracks (backend_of_perform (by simp) hm) (by simp) (by simp) (by simp)
      (by simp) ?_ ?_ <;> rw [hs] <;> nofun
  | .dropFlight f =>
    refine hi.away tracks (backend_of_perform (by simp) hm) (by simp) (by simp) (by simp)
      (by simp) ?_ ?_
    · rcases hr with ⟨d, hs⟩ | hs
      · rw [show stages h t = .unlocked d f from hs]
        nofun
      · rw [show stages h t = .released f from hs]
        nofun
    · rw [Stage.next_dropFlight (s := stages h t) hr]
      nofun

/-! ### Every run comes to an end -/

section
variable (X policy)

private theorem bounded_load : (load : Prog Op (Op.Res P) (Except CacheError P)).Bounded 4 :=
  .call fun _ => .call fun _ => .call fun _ => .call fun _ => .ret 0 _

private theorem bounded_bypass : (bypass : Prog Op (Op.Res P) (Except CacheError P)).Bounded 5 :=
  .call fun _ => bounded_load

private theorem bounded_cached (key : CacheKey) : (cached X key).Bounded 2 := by
  refine .call fun result => ?_
  match result with
  | .error _ => exact .call fun _ => .ret 0 _
  | .ok none => exact .ret 1 _
  | .ok (some bytes) =>
    simp only [ret_bind]
    split
    · exact .ret 1 _
    · exact .call fun _ => .ret 0 _

private theorem bounded_backfill (key : CacheKey) (p : P) : (backfill X policy key p).Bounded 3 := by
  unfold backfill
  split
  · refine .call fun now => ?_
    simp only [ret_bind]
    split
    · exact .ret 2 _
    · refine .call fun result => ?_
      match result with
      | .error _ => exact .call fun _ => .ret 0 _
      | .ok _ => exact .ret 1 _
  · exact .ret 3 _

private theorem bounded_leaveFlight (key : CacheKey) (f : FlightId) :
    (leaveFlight key f : Prog Op (Op.Res P) Unit).Bounded 3 :=
  .call fun _ => .call fun _ => .call fun _ => .ret 0 _

theorem bounded_abandonFlight (f : FlightId) :
    (abandonFlight f : Prog Op (Op.Res P) Unit).Bounded 3 :=
  .call fun _ => .call fun _ => .ret 1 _

private theorem bounded_flightSection (key : CacheKey) : (flightSection X policy key).Bounded 14 := by
  refine .call fun flight => .call fun _ => ?_
  refine ((bounded_cached X key).bind fun a => ?_ : Prog.Bounded (2 + (4 + (3 + (3 + 0)))) _)
  match a with
  | some p =>
    refine .call fun _ => ?_
    exact ((bounded_leaveFlight key flight).bind fun _ => .ret 0 _).mono (by omega)
  | none =>
    refine bounded_load.bind fun a => ?_
    match a with
    | .error e => exact ((bounded_abandonFlight flight).bind fun _ => .ret 0 _).mono (by omega)
    | .ok p =>
      refine (bounded_backfill X policy key p).bind fun a => ?_
      match a with
      | .error e => exact (bounded_abandonFlight flight).bind fun _ => .ret 0 _
      | .ok _ => exact (bounded_leaveFlight key flight).bind fun _ => .ret 0 _

theorem bounded_getOrLoad (request : CacheRequest) : (getOrLoad X policy request).Bounded 18 := by
  unfold getOrLoad
  split
  · exact bounded_bypass.mono (by omega)
  · split
    · exact bounded_bypass.mono (by omega)
    · refine .call fun result => ?_
      match result with
      | .error _ => exact .call fun _ => bounded_load.mono (by omega)
      | .ok g =>
        simp only [ret_bind]
        split
        · exact bounded_load.mono (by omega)
        · next key _ =>
          refine ((bounded_cached X key).bind fun a => ?_ : Prog.Bounded (2 + (14 + 1)) _)
          match a with
          | some p => exact .call fun _ => .ret 14 _
          | none => exact .call fun _ => bounded_flightSection X policy key

end

/-- How often loaders have been run. -/
def loads (h : History P T) : Nat := h.countP fun e => e.op = .loaderStart

omit [DecidableEq T] in
private theorem loads_eq (h : History P T) : loads h = loads (loaderEvents h) := by
  rw [loads, loads, loaderEvents, List.countP_filter]
  apply List.countP_congr
  intro e _
  simp only [decide_eq_true_eq, Bool.and_eq_true, iff_self_and]
  exact .inl

/-- All calls have returned the payload that the only run of a loader has read. -/
def LoadedOnce (d : Config T Op (Op.Res P) (World B T) (Reply P)) : Prop :=
  ∃ p loader, (∀ t, d.tasks t = .ret (.payload (.ok p))) ∧ loads d.history = 1 ∧
    ⟨loader, .databaseRead, .ok p⟩ ∈ d.history

theorem OneLoad.returned (hi : OneLoad X policy abs key counter w h)
    (same : SameKey X key counter request)
    (encodes : ∀ p now, X.len p ≤ policy.maxValueSize → ∃ bytes,
      (CacheEnvelope.new key p policy.ttl now).encode X = .ok bytes)
    {result : Except CacheError P} (hend : CallEnd X policy request result (h.own t)) :
    ∃ p loader, result = .ok p ∧
      loaderEvents h = [⟨loader, .databaseRead, .ok p⟩, ⟨loader, .loaderStart, ()⟩] := by
  cases result with
  | error e =>
    rcases hend.error e rfl with read | ⟨g, key', hk, hn⟩
    · obtain ⟨p, hp, -⟩ := hi.situation.of_read (History.mem_own.mp read)
      cases hp
    · obtain rfl := hi.toLookups.key_eq same hk
      exact absurd hn (hi.situation.stored encodes)
  | ok p =>
    rcases hend.ok p rfl with read | ⟨g, key', hk, bytes, envelope, got, decoded, payload⟩
    · obtain ⟨p', hp, -, he⟩ := hi.situation.of_read (History.mem_own.mp read)
      cases hp
      exact ⟨p, t, rfl, he⟩
    · obtain rfl := hi.toLookups.key_eq same hk
      obtain ⟨found, hf, hc⟩ := hi.served t _ (History.mem_own.mp got)
      obtain ⟨loader, p', now, hd, he⟩ :=
        hi.situation.decoded (hc bytes (Except.ok.inj hf).symm)
      rw [decoded] at hd
      cases hd
      cases payload
      exact ⟨_, loader, rfl, he⟩

variable (X policy) in
/-- The calls for one key, on an interceptor whose cache does not hold it. -/
structure ColdStart (abs : B.State → Store) (key : CacheKey) (requests : T → CacheRequest)
    (state : B.State) : Prop where
  same : ∀ t, SameKey X key (abs state).counter (requests t)
  cold : (abs state).content key.digest = none
  encodes : ∀ p now, X.len p ≤ policy.maxValueSize → ∃ bytes,
    (CacheEnvelope.new key p policy.ttl now).encode X = .ok bytes

variable {requests : T → CacheRequest} {state : B.State}

private theorem oneLoad_initial (start : ColdStart X policy abs key requests state) :
    OneLoad X policy abs key (abs state).counter
      (initial X policy (fun t => .getOrLoad (requests t)) state).world [] where
  tracks := tracks_new state
  counters := rfl
  generations t n r hm := by cases hm
  served t r hm := by cases hm
  clock := History.always_nil
  absent t f hs := by cases hs
  missing t f p hs := by cases hs
  situation := .cold start.cold rfl

private theorem oneLoad_preserved (codec : X.RoundTrips)
    (start : ColdStart X policy abs key requests state) :
    Preserves (machine B P T) (Lossless X policy abs)
      (fun t => (Task.getOrLoad (requests t)).rule X policy)
      (OneLoad X policy abs key (abs state).counter) :=
  fun t _ _ _ _ _ _ hi hr ha hm => hi.step (start.same t) codec start.encodes hr ha hm

/-- Any positive number of calls for one key together run the loader exactly once and all return
what it has read: no lossless run gets stuck or ends otherwise. -/
theorem loaded_once [Fintype T] [Nonempty T] (codec : X.RoundTrips)
    (start : ColdStart X policy abs key requests state) :
    Inevitable (machine B P T) (Lossless X policy abs) LoadedOnce
      (initial X policy (fun t => .getOrLoad (requests t)) state) := by
  let tasks : T → Task := fun t => .getOrLoad (requests t)
  refine inevitable_of_bounded
    (fun c => OneLoad X policy abs key (abs state).counter c.world c.history ∧
      c.Obeys (fun t => (tasks t).rule X policy) fun t => (tasks t).End X policy)
    (fun _ => 18) ?_ ?_ ?_ ?_ ?_
  · rintro c d ⟨hi, hc⟩ hs
    exact ⟨hs.preserves (oneLoad_preserved codec start) hc hi, hs.obeys hc⟩
  · rintro c ⟨hi, hc⟩ hn
    exact enabled_of_unfinished hi.tracks hc hn
  · rintro c ⟨hi, hc⟩ hf
    have hreturned (t : T) : ∃ p loader, c.tasks t = .ret (.payload (.ok p)) ∧
        loaderEvents c.history =
          [⟨loader, .databaseRead, .ok p⟩, ⟨loader, .loaderStart, ()⟩] := by
      obtain ⟨reply, hr⟩ := hf t
      obtain ⟨result, rfl, hend⟩ := hc.returned hr
      obtain ⟨p, loader, rfl, he⟩ := hi.returned (start.same t) start.encodes hend
      exact ⟨p, loader, hr, he⟩
    obtain ⟨t₀⟩ := ‹Nonempty T›
    obtain ⟨p, loader, -, he⟩ := hreturned t₀
    refine ⟨p, loader, fun t => ?_, ?_, ?_⟩
    · obtain ⟨q, _, hq, he'⟩ := hreturned t
      rw [he] at he'
      cases he'
      exact hq
    · rw [loads_eq, he]
      rfl
    · have hm : ⟨loader, .databaseRead, .ok p⟩ ∈ loaderEvents c.history := by simp [he]
      exact List.mem_of_mem_filter hm
  · exact ⟨oneLoad_initial start, obeys_initial tasks state⟩
  · exact fun t => (bounded_getOrLoad X policy (requests t)).bind fun _ => .ret 0 _

end

/-- The flight lock is exclusive and effective. Whatever fails, no two calls with one digest have
their loaders running under the lock; and when nothing fails, expires or is evicted, the calls for
one key run the loader exactly once and all return its payload. -/
theorem getOrLoad_singleflight {B : CacheBackend} {P T : Type} [DecidableEq T] {X : Externals P}
    {policy : CachePolicy} :
    (∀ (tasks : T → Task) (state : B.State) (d : Config T Op (Op.Res P) (World B T) (Reply P)),
      Reaches (machine B P T) Restriction.none (initial X policy tasks state) d →
      ∀ s t digest, LoadingUnderLock d.history s digest → LoadingUnderLock d.history t digest →
        s = t) ∧
    ∀ [Fintype T] [Nonempty T] (abs : B.State → Store) (key : CacheKey)
      (requests : T → CacheRequest) (state : B.State), X.RoundTrips →
      ColdStart X policy abs key requests state →
      Inevitable (machine B P T) (Lossless X policy abs) LoadedOnce
        (initial X policy (fun t => .getOrLoad (requests t)) state) :=
  ⟨fun _ _ _ run _ _ _ hs ht => flight_exclusive run hs ht,
    fun _ _ _ _ codec start => loaded_once codec start⟩

/-- The digest whose flight section a call is in. -/
def Stage.digest : Stage → Option String
  | .inside digest _ _ => some digest
  | _ => none

theorem Stage.inside_of_digest {s : Stage} {digest : String} (h : s.digest = some digest) :
    ∃ f p, s = .inside digest f p := by
  cases s with
  | inside d f p =>
    obtain rfl : d = digest := Option.some.inj h
    exact ⟨f, p, rfl⟩
  | _ => cases h

/-- Two calls of which the first is loading, and how all their lossless runs end. -/
theorem two_calls_load_once :
    (∃ (d : Config Bool Op (Op.Res Bytes) (World (LocalBackend.backend Sample.hash) Bool)
        (Reply Bytes)) (digest : String), LoadingUnderLock d.history false digest ∧
        ∀ t, LoadingUnderLock d.history t digest → t = false) ∧
    Inevitable (machine (LocalBackend.backend Sample.hash) Bytes Bool)
      (Lossless Sample.externals {} LocalBackend.abs) LoadedOnce
      (initial Sample.externals {} (fun _ => .getOrLoad ⟨Sample.keyInput, false⟩)
        (LocalBackend.withConfig {})) := by
  constructor
  · let now : Choice (LocalBackend.backend Sample.hash) Bytes := ⟨⟨[], 5⟩, 5, .ok [7]⟩
    obtain ⟨d, run, seen⟩ := play_observed (M := machine _ Bytes Bool) (A := Restriction.none)
      (c := initial Sample.externals {} (fun _ => .getOrLoad ⟨Sample.keyInput, false⟩)
        (LocalBackend.withConfig {}))
      (List.replicate 8 (false, now))
      (fun d => (stages d.history false).digest.isSome && decide
        (⟨false, .loaderStart, ()⟩ ∈ d.history ∧ ⟨false, .loaderFinish, ()⟩ ∉ d.history))
      (by decide +kernel)
    simp only [Bool.and_eq_true, decide_eq_true_eq] at seen
    obtain ⟨held, loading⟩ := seen
    obtain ⟨digest, hd⟩ := Option.isSome_iff_exists.mp held
    have hl : LoadingUnderLock d.history false digest := ⟨Stage.inside_of_digest hd, loading⟩
    exact ⟨d, digest, hl, fun t ht => getOrLoad_singleflight.1 _ _ d run t false digest ht hl⟩
  · have hparse : ∃ metadata, SqlMetadata.parse Sample.externals.parser "SELECT 1" = .ok metadata ∧
        metadata.kind = .select := ⟨_, rfl, by decide⟩
    obtain ⟨metadata, hm, hkind⟩ := hparse
    have hbuild : ∃ key, CacheKey.build Sample.externals Sample.keyInput 0 = .ok key :=
      CacheKey.build_of_parse hm 0
    obtain ⟨key, hb⟩ := hbuild
    have start : ColdStart (B := LocalBackend.backend Sample.hash) Sample.externals {}
        LocalBackend.abs key (fun _ : Bool => ⟨Sample.keyInput, false⟩)
        (LocalBackend.withConfig {}) :=
      ⟨fun _ => ⟨⟨metadata, hm, rfl, hkind⟩, hb⟩, rfl, fun p now _ => Sample.encodes rfl hb p _ now⟩
    exact getOrLoad_singleflight.2 _ key _ _ Sample.externals_roundTrips start

end RbatisCache.CacheInterceptor
