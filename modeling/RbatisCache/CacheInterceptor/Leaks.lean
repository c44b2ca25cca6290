import Mathlib.Data.Fintype.Basic
import RbatisCache.CacheInterceptor.Flights
import RbatisCache.Spi.LocalBackend
import RbatisCache.Spi.Sample

/-! When the flight table is empty again. A call removes the entry of its flight only when nobody
else holds a clone, and only on its regular exits. -/
namespace RbatisCache.CacheInterceptor
open Interleaving

section
variable {B : CacheBackend} {P T : Type} [DecidableEq T]

/-- The last call that has its `release_flight` ahead does not leave early, and releases when
nobody else holds a clone any more. -/
def LeavesClean : Restriction T Op (Op.Res P) (Choice B P) (World B T) := fun t op _ _ h =>
  match op with
  | .releaseFlight d f => (∃ s, s ≠ t ∧ (stages h s).entry = some (d, f)) ∨
      ∀ s, s ≠ t → (stages h s).flight ≠ some f
  | .dropFlight f => ∀ d, stages h t = .unlocked d f →
      ∃ s, s ≠ t ∧ (stages h s).entry = some (d, f)
  | _ => True

instance [Fintype T] (t : T) (op : Op) (ch : Choice B P) (w : World B T) (h : History P T) :
    Decidable (LeavesClean t op ch w h) :=
  match op with
  | .releaseFlight d f => inferInstanceAs (Decidable ((∃ s, s ≠ t ∧ (stages h s).entry =
      some (d, f)) ∨ ∀ s, s ≠ t → (stages h s).flight ≠ some f))
  | .dropFlight f =>
    match hs : stages h t with
    | .unlocked d g => decidable_of_iff
        (g = f → ∃ s, s ≠ t ∧ (stages h s).entry = some (d, f)) <| by
        simp only [LeavesClean, hs, Stage.unlocked.injEq, and_imp, forall_eq']
    | .outside | .waiting _ _ | .inside _ _ _ | .released _ | .gone =>
      .isTrue fun d he => by simp [hs] at he
  | .backend _ | .nowMs | .record _ | .flightsEntry _ | .lock _ | .unlock _ | .loaderStart
  | .loaderFinish | .databaseRead | .databaseWrite => .isTrue trivial

/-- Every entry of the table belongs to a call that has its release ahead. -/
def Owned (w : World B T) (σ : T → Stage) : Prop :=
  ∀ d f, w.flights.lookup d = some f → ∃ t, (σ t).entry = some (d, f)

variable {w u : World B T} {σ : T → Stage} {t : T}

/-- Steps that change neither the table nor the entries of the calls. -/
theorem Owned.frame (ho : Owned w σ) (hf : u.flights = w.flights) {s : Stage}
    (entry : s.entry = (σ t).entry) : Owned u (Function.update σ t s) := by
  intro d f hl
  rw [hf] at hl
  obtain ⟨r, hr⟩ := ho d f hl
  refine ⟨r, ?_⟩
  by_cases hrt : r = t
  · subst hrt
    rw [Function.update_self, entry, hr]
  · rw [Function.update_of_ne hrt, hr]

/-- The entries that the stepping call has nothing to do with. -/
theorem Owned.others (ho : Owned w σ) {d : String} {f : FlightId} (hl : w.flights.lookup d = some f)
    (hd : (σ t).entry ≠ some (d, f)) (s : Stage) :
    ∃ r, (Function.update σ t s r).entry = some (d, f) := by
  obtain ⟨r, hr⟩ := ho d f hl
  have hrt : r ≠ t := by
    rintro rfl
    exact hd hr
  exact ⟨r, by rw [Function.update_of_ne hrt, hr]⟩

theorem Owned.flightsEntry (ho : Owned w σ) (hs : σ t = .outside) (e : String) :
    Owned (w.flightsEntry e).2 (Function.update σ t (.waiting e (w.flightsEntry e).1)) := by
  have hnone (d : String) (f : FlightId) : (σ t).entry ≠ some (d, f) := by
    rw [hs]
    exact nofun
  unfold World.flightsEntry
  split
  · exact fun d f hl => ho.others hl (hnone d f) _
  · intro d f hl
    rcases DashMap.lookup_of_insert hl with ⟨rfl, rfl⟩ | ⟨-, old⟩
    · exact ⟨t, by rw [Function.update_self]; rfl⟩
    · exact ho.others old (hnone d f) _

omit [DecidableEq T] in
/-- A call that releases when it is the only holder removes the entry. -/
theorem Tracks.removes (hw : Tracks w σ) {d : String} {f : FlightId} (hs : σ t = .unlocked d f)
    (alone : ∀ s, s ≠ t → (σ s).flight ≠ some f) : (w.arcs f).strong = 2 := by
  have hl : w.flights.lookup d = some f := hw.entry (t := t) (by rw [hs]; rfl)
  obtain ⟨holders, hm, hyes, -⟩ := hw.count f (hw.table hl)
  have hc : holders = {t} := by
    ext s
    rw [hm, Finset.mem_singleton]
    constructor
    · exact fun h => by_contra fun hne => alone s hne h
    · rintro rfl
      rw [hs]
      rfl
  rw [hyes ⟨d, hl⟩, hc, Finset.card_singleton]

theorem Owned.releaseFlight (ho : Owned w σ) (hw : Tracks w σ) {d : String} {f : FlightId}
    (hs : σ t = .unlocked d f)
    (clean : (∃ s, s ≠ t ∧ (σ s).entry = some (d, f)) ∨ ∀ s, s ≠ t → (σ s).flight ≠ some f) :
    Owned (w.releaseFlight d f) (Function.update σ t (.released f)) := by
  have hl : w.flights.lookup d = some f := hw.entry (t := t) (by rw [hs]; rfl)
  have hentry (e : String) (g : FlightId) (he : e ≠ d) : (σ t).entry ≠ some (e, g) := by
    rw [hs]
    rintro ⟨⟩
    exact he rfl
  by_cases h2 : (w.arcs f).strong = 2
  · have hr : w.releaseFlight d f =
        ({ w with flights := w.flights.erase d } : World B T).dropFlight f := by
      simp [World.releaseFlight, hl, h2]
    rw [hr]
    intro e g hg
    have hed : e ≠ d := by
      rintro rfl
      simp [World.dropFlight] at hg
    exact ho.others (DashMap.lookup_of_erase hg) (hentry e g hed) _
  · have hr : w.releaseFlight d f = w := by simp [World.releaseFlight, hl, h2]
    rw [hr]
    intro e g hg
    by_cases hed : e = d
    · subst hed
      rw [hl] at hg
      cases hg
      rcases clean with ⟨s, hst, hse⟩ | alone
      · exact ⟨s, by rw [Function.update_of_ne hst, hse]⟩
      · exact absurd (hw.removes hs alone) h2
    · exact ho.others hg (hentry e g hed) _

theorem Owned.dropFlight (ho : Owned w σ) {f : FlightId}
    (hs : (∃ d, σ t = .unlocked d f) ∨ σ t = .released f)
    (clean : ∀ d, σ t = .unlocked d f → ∃ s, s ≠ t ∧ (σ s).entry = some (d, f)) :
    Owned (w.dropFlight f) (Function.update σ t .gone) := by
  intro e g hg
  by_cases he : (σ t).entry = some (e, g)
  · rcases hs with ⟨d, hs⟩ | hs
    · rw [hs] at he
      cases he
      obtain ⟨s, hst, hse⟩ := clean e hs
      exact ⟨s, by rw [Function.update_of_ne hst, hse]⟩
    · rw [hs] at he
      cases he
  · exact ho.others hg he _

variable {X : Externals P} {policy : CachePolicy} {h : History P T} {op : Op}

theorem Owned.step (ho : Owned w (stages h)) (hw : Tracks w (stages h)) {ch : Choice B P}
    {r : op.Res P} (ha : (stages h t).Admits op) (hc : LeavesClean t op ch w h)
    (hm : (machine B P T).perform t op ch w = some (r, u)) :
    Owned u (stages (⟨t, op, r⟩ :: h)) := by
  rw [stages_cons]
  match op with
  | .flightsEntry d =>
    obtain ⟨rfl, rfl⟩ := Prod.mk.inj (Option.some.inj hm)
    rw [show stages h t = .outside from ha]
    exact ho.flightsEntry ha d
  | .lock f =>
    obtain ⟨d, hs⟩ := ha
    obtain ⟨v, hv, he⟩ := Option.map_eq_some_iff.mp hm
    obtain ⟨-, rfl⟩ := Prod.mk.inj he
    simp only [World.lock] at hv
    split at hv
    · cases hv
      refine ho.frame (by rfl) ?_
      rw [hs]
      rfl
    · cases hv
  | .unlock f =>
    obtain ⟨d, p, hs⟩ := ha
    obtain ⟨-, rfl⟩ := Prod.mk.inj (Option.some.inj hm)
    refine ho.frame (by rfl) ?_
    rw [hs]
    rfl
  | .releaseFlight d f =>
    obtain ⟨-, rfl⟩ := Prod.mk.inj (Option.some.inj hm)
    rw [show stages h t = .unlocked d f from ha]
    exact ho.releaseFlight hw ha hc
  | .dropFlight f =>
    obtain ⟨-, rfl⟩ := Prod.mk.inj (Option.some.inj hm)
    rw [Stage.next_dropFlight ha]
    exact ho.dropFlight ha hc
  | .backend _ =>
    cases hm
    exact ho.frame (by rfl) (Stage.entry_of_quiet (by rfl) _ _)
  | .nowMs | .record _ | .loaderStart | .loaderFinish | .databaseRead | .databaseWrite =>
    cases hm
    exact ho.frame (by rfl) (Stage.entry_of_quiet (by rfl) _ _)

private theorem owned_preserved {tasks : T → Task} :
    Preserves (machine B P T) LeavesClean (fun t => (tasks t).rule X policy)
      fun w h => Tracks w (stages h) ∧ Owned w (stages h) :=
  fun _ _ _ _ _ _ _ hi hr hc hm =>
    ⟨hi.1.step (Task.admits hr) hm, hi.2.step hi.1 (Task.admits hr) hc hm⟩

/-- A call that is not in progress has no entry. -/
theorem entry_of_idle {tasks : T → Task} {d : Config T Op (Op.Res P) (World B T) (Reply P)}
    (hd : d.Obeys (fun t => (tasks t).rule X policy) fun t => (tasks t).End X policy)
    (idle : d.Idle t) : (stages d.history t).entry = none := by
  rcases idle with hown | ⟨reply, hreply⟩
  · rw [stages, hown]
    rfl
  · have hend := hd.returned hreply
    have hs : stages d.history t = .outside ∨ stages d.history t = .gone := by
      cases ht : tasks t with
      | getOrLoad request =>
        rw [ht] at hend
        obtain ⟨_, -, hend⟩ := hend
        exact hend.stage
      | write n =>
        rw [ht] at hend
        exact .inl hend
    rcases hs with hs | hs <;> rw [hs] <;> rfl

/-- In every run whose calls leave clean, the table is empty whenever no call is in progress. -/
theorem flights_empty_of_idle {tasks : T → Task} {state : B.State}
    {d : Config T Op (Op.Res P) (World B T) (Reply P)}
    (run : Reaches (machine B P T) LeavesClean (initial X policy tasks state) d)
    (idle : ∀ t, d.Idle t) : d.world.flights = ∅ := by
  have hnew : Owned (World.new state : World B T) fun _ => .outside := by
    intro d f hl
    simp [World.new] at hl
  obtain ⟨⟨-, ho⟩, hd⟩ := run.preserves owned_preserved (obeys_initial tasks state)
    ⟨tracks_initial, hnew⟩
  apply DashMap.eq_empty_of_lookup
  intro k
  cases hl : d.world.flights.lookup k with
  | none => rfl
  | some f =>
    obtain ⟨t, ht⟩ := ho k f hl
    rw [entry_of_idle hd (idle t)] at ht
    cases ht

end

/-- Two calls that overlap in one flight leave nothing behind: the first one releases while the second one
waits for the lock, and the second one when the first one is gone. -/
theorem flights_empty_after_load :
    ∃ d : Config Bool Op (Op.Res Bytes) (World (LocalBackend.backend Sample.hash) Bool)
        (Reply Bytes),
      (∀ t, d.returned t = some (.payload (.ok [7]))) ∧
      (∀ t, ⟨t, .lock 0, ()⟩ ∈ d.history) ∧
      d.history.Precedes ⟨true, .record .miss, ()⟩ ⟨false, .unlock 0, ()⟩ ∧ d.world.flights = ∅ := by
  let now : Choice (LocalBackend.backend Sample.hash) Bytes := ⟨⟨[], 5⟩, 5, .ok [7]⟩
  obtain ⟨d, run, seen⟩ := play_observed (M := machine _ Bytes Bool) (A := LeavesClean)
    (c := initial Sample.externals {} (fun _ => .getOrLoad ⟨Sample.keyInput, false⟩)
      (LocalBackend.withConfig {}))
    (List.replicate 5 (false, now) ++ List.replicate 4 (true, now) ++ List.replicate 10 (false, now) ++
      List.replicate 7 (true, now))
    (fun d => decide ((∀ t, d.returned t = some (.payload (.ok [7]))) ∧
      (∀ t : Bool, (⟨t, .lock 0, ()⟩ : Event Bool Op (Op.Res Bytes)) ∈ d.history) ∧
      d.history.Precedes ⟨true, .record .miss, ()⟩ ⟨false, .unlock 0, ()⟩))
    (by decide +kernel)
  obtain ⟨returned, locked, overlap⟩ := of_decide_eq_true seen
  exact ⟨d, returned, locked, overlap, flights_empty_of_idle run fun t =>
    .inr ⟨_, Config.returned_eq_some.mp (returned t)⟩⟩

/-- A call whose loader fails returns by `?` and leaves its entry in the table. -/
theorem flight_leaked_by_failed_load :
    ∃ d : Config Unit Op (Op.Res Bytes) (World (LocalBackend.backend Sample.hash) Unit)
        (Reply Bytes),
      Reaches (machine _ Bytes Unit) Restriction.none
        (initial Sample.externals {} (fun _ => .getOrLoad ⟨Sample.keyInput, false⟩)
          (LocalBackend.withConfig {})) d ∧
      d.returned () = some (.payload (.error (.loader "connection lost"))) ∧ (∀ t, d.Idle t) ∧
      d.world.flights ≠ ∅ := by
  let now : Choice (LocalBackend.backend Sample.hash) Bytes :=
    ⟨⟨[], 5⟩, 5, .error (.loader "connection lost")⟩
  obtain ⟨d, run, seen⟩ := play_observed (M := machine _ Bytes Unit) (A := Restriction.none)
    (c := initial Sample.externals {} (fun _ => .getOrLoad ⟨Sample.keyInput, false⟩)
      (LocalBackend.withConfig {}))
    (List.replicate 12 ((), now))
    (fun d => decide (d.returned () = some (.payload (.error (.loader "connection lost"))) ∧
      d.world.flights.len = 1)) (by decide +kernel)
  obtain ⟨returned, hlen⟩ := of_decide_eq_true seen
  refine ⟨d, run, returned, fun _ => .inr ⟨_, Config.returned_eq_some.mp returned⟩, fun he => ?_⟩
  rw [he] at hlen
  cases hlen

end RbatisCache.CacheInterceptor
