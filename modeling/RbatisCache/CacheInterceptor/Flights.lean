import Mathlib.Data.Finset.Card
import RbatisCache.CacheInterceptor.Call
import RbatisCache.Interleaving.Progress

/-! The flight table: how the reference counts of the flights follow the calls that hold them. -/
namespace RbatisCache.CacheInterceptor
open Interleaving Interleaving.Prog

/-- The operations on the flight table. -/
def Op.onFlights : Op → Bool
  | .flightsEntry _ | .lock _ | .unlock _ | .releaseFlight _ _ | .dropFlight _ => true
  | _ => false

namespace Stage

/-- The flight of which the call holds a clone. -/
def flight : Stage → Option FlightId
  | .outside | .gone => none
  | .waiting _ f | .inside _ f _ | .unlocked _ f | .released f => some f

/-- The table entry that the call has not given up yet. -/
def entry : Stage → Option (String × FlightId)
  | .outside | .released _ | .gone => none
  | .waiting d f | .inside d f _ | .unlocked d f => some (d, f)

private theorem flight_of_entry {s : Stage} {d : String} {f : FlightId} (h : s.entry = some (d, f)) :
    s.flight = some f := by
  cases s <;> simp_all [entry, flight]

/-- The stages in which a call may work on its flight. -/
def Admits : Stage → Op → Prop
  | s, .flightsEntry _ => s = .outside
  | s, .lock f => ∃ d, s = .waiting d f
  | s, .unlock f => ∃ d p, s = .inside d f p
  | s, .releaseFlight d f => s = .unlocked d f
  | s, .dropFlight f => (∃ d, s = .unlocked d f) ∨ s = .released f
  | _, _ => True

/-- What a call does to anything but the flight table at most changes its phase. -/
theorem next_of_quiet {P : Type} {op : Op} (hq : op.onFlights = false) (r : op.Res P)
    (s : Stage) : s.next op r = s ∨ ∃ d f p q, s = .inside d f p ∧ s.next op r = .inside d f q := by
  cases op with
  | flightsEntry _ | lock _ | unlock _ | releaseFlight _ _ | dropFlight _ => cases hq
  | backend op =>
    cases op with
    | put k v ttl =>
      cases s with
      | inside d f p => exact .inr ⟨d, f, p, by cases p <;> exact ⟨_, rfl, rfl⟩⟩
      | _ => exact .inl rfl
    | _ => exact .inl rfl
  | record m =>
    cases s with
    | inside d f p => exact .inr ⟨d, f, p, by cases m <;> cases p <;> exact ⟨_, rfl, rfl⟩⟩
    | _ => cases m <;> exact .inl rfl
  | loaderStart =>
    cases s with
    | inside d f p => exact .inr ⟨d, f, p, by cases p <;> exact ⟨_, rfl, rfl⟩⟩
    | _ => exact .inl rfl
  | databaseRead =>
    cases s with
    | inside d f p => exact .inr ⟨d, f, p, by cases p <;> exact ⟨_, rfl, rfl⟩⟩
    | _ => exact .inl rfl
  | _ => exact .inl rfl

theorem entry_of_quiet {P : Type} {op : Op} (hq : op.onFlights = false) (r : op.Res P)
    (s : Stage) : (s.next op r).entry = s.entry := by
  rcases next_of_quiet hq r s with h | ⟨d, f, p, q, hs, h⟩
  · rw [h]
  · rw [h, hs]
    rfl

theorem next_dropFlight {P : Type} {s : Stage} {f : FlightId} {r : (Op.dropFlight f).Res P}
    (h : s.Admits (.dropFlight f)) : s.next (.dropFlight f) r = .gone := by
  rcases h with ⟨d, rfl⟩ | rfl
  · rfl
  · rfl

end Stage

section
variable {P T : Type} [DecidableEq T]

def stages (h : History P T) (t : T) : Stage := stageOf (h.own t)

theorem stages_cons (h : History P T) (t : T) (op : Op) (r : op.Res P) :
    stages (⟨t, op, r⟩ :: h) = Function.update (stages h) t ((stages h t).next op r) := by
  funext s
  by_cases hs : s = t
  · subst hs
    simp [stages, stageOf]
  · rw [Function.update_of_ne hs, stages, stages, History.own_cons_ne (Ne.symm hs)]

end

section
variable {B : CacheBackend} {T : Type} {w u : World B T} {σ : T → Stage}

/-- What the flight table and the stages of the calls have to do with each other. -/
structure Tracks (w : World B T) (σ : T → Stage) : Prop where
  table : ∀ {d f}, w.flights.lookup d = some f → f < w.created
  digest : ∀ {d e f}, w.flights.lookup d = some f → w.flights.lookup e = some f → d = e
  born : ∀ {t f}, (σ t).flight = some f → f < w.created
  count : ∀ f, f < w.created → ∃ holders : Finset T, (∀ t, t ∈ holders ↔ (σ t).flight = some f) ∧
    ((∃ d, w.flights.lookup d = some f) → (w.arcs f).strong = holders.card + 1) ∧
    ((¬ ∃ d, w.flights.lookup d = some f) → (w.arcs f).strong = holders.card)
  entry : ∀ {t d f}, (σ t).entry = some (d, f) → w.flights.lookup d = some f
  owner : ∀ t f, (w.arcs f).owner = some t ↔ ∃ d p, σ t = .inside d f p

theorem tracks_new (state : B.State) : Tracks (World.new state : World B T) fun _ => .outside where
  table h := by simp [World.new] at h
  digest h := by simp [World.new] at h
  born h := by cases h
  count f hf := by simp [World.new] at hf
  entry h := by cases h
  owner t f := by simp [World.new]

/-- Two calls inside the flight section of one digest are the same call. -/
theorem Tracks.exclusive (hw : Tracks w σ) {s t : T} {d : String} {f g : FlightId}
    {p q : Phase} (hs : σ s = .inside d f p) (ht : σ t = .inside d g q) : s = t := by
  have hf : w.flights.lookup d = some f := hw.entry (t := s) (by rw [hs]; rfl)
  have hg : w.flights.lookup d = some g := hw.entry (t := t) (by rw [ht]; rfl)
  obtain rfl : f = g := Option.some.inj (hf.symm.trans hg)
  have ho := (hw.owner s f).mpr ⟨d, p, hs⟩
  rw [(hw.owner t f).mpr ⟨d, q, ht⟩] at ho
  exact (Option.some.inj ho).symm

variable [DecidableEq T] {t : T}

/-! What becomes of the fields when one call changes its stage. -/

theorem Tracks.born_update (hw : Tracks w σ) {s : Stage} {n : Nat} (grows : w.created ≤ n)
    (own : ∀ f, s.flight = some f → f < n) {r : T} {f : FlightId}
    (hr : (Function.update σ t s r).flight = some f) : f < n := by
  by_cases hrt : r = t
  · subst hrt
    rw [Function.update_self] at hr
    exact own f hr
  · rw [Function.update_of_ne hrt] at hr
    exact (hw.born hr).trans_le grows

private theorem entry_update {s : Stage} {flights : DashMap String FlightId}
    (own : ∀ d f, s.entry = some (d, f) → flights.lookup d = some f)
    (others : ∀ r d f, r ≠ t → (σ r).entry = some (d, f) → flights.lookup d = some f)
    {r : T} {d : String} {f : FlightId}
    (hr : (Function.update σ t s r).entry = some (d, f)) : flights.lookup d = some f := by
  by_cases hrt : r = t
  · subst hrt
    rw [Function.update_self] at hr
    exact own d f hr
  · rw [Function.update_of_ne hrt] at hr
    exact others r d f hrt hr

/-- A call that is outside the flight sections before and after holds no lock. -/
theorem Tracks.owner_update (hw : Tracks w σ) {s : Stage}
    (same : ∀ f, (u.arcs f).owner = (w.arcs f).owner) (before : ∀ d f p, σ t ≠ .inside d f p)
    (after : ∀ d f p, s ≠ .inside d f p) (r : T) (f : FlightId) :
    (u.arcs f).owner = some r ↔ ∃ d p, Function.update σ t s r = .inside d f p := by
  rw [same, hw.owner]
  by_cases hrt : r = t
  · subst hrt
    rw [Function.update_self]
    exact iff_of_false (fun ⟨d, p, h⟩ => before d f p h) fun ⟨d, p, h⟩ => after d f p h
  · rw [Function.update_of_ne hrt]

private theorem flight_update {s : Stage} {f : FlightId}
    (same : s.flight = some f ↔ (σ t).flight = some f) (r : T) :
    (Function.update σ t s r).flight = some f ↔ (σ r).flight = some f := by
  by_cases hrt : r = t
  · subst hrt
    rw [Function.update_self]
    exact same
  · rw [Function.update_of_ne hrt]

/-- A flight that nobody takes up or gives up, and that stays in the table or out of it. -/
theorem Tracks.count_update (hw : Tracks w σ) {s : Stage} {f : FlightId} (hlt : f < w.created)
    (same : s.flight = some f ↔ (σ t).flight = some f)
    (mapped : (∃ d, u.flights.lookup d = some f) ↔ ∃ d, w.flights.lookup d = some f)
    (strong : (u.arcs f).strong = (w.arcs f).strong) :
    ∃ holders : Finset T, (∀ r, r ∈ holders ↔ (Function.update σ t s r).flight = some f) ∧
      ((∃ d, u.flights.lookup d = some f) → (u.arcs f).strong = holders.card + 1) ∧
      ((¬ ∃ d, u.flights.lookup d = some f) → (u.arcs f).strong = holders.card) := by
  obtain ⟨holders, hm, hyes, hno⟩ := hw.count f hlt
  refine ⟨holders, fun r => ?_, ?_, ?_⟩
  · rw [flight_update same, hm]
  · rw [mapped, strong]
    exact hyes
  · rw [mapped, strong]
    exact hno

/-- A call that takes up a flight of the table. -/
theorem mem_insert_update {s : Stage} {f : FlightId} {holders : Finset T}
    (hm : ∀ r, r ∈ holders ↔ (σ r).flight = some f) (taken : s.flight = some f) (r : T) :
    r ∈ insert t holders ↔ (Function.update σ t s r).flight = some f := by
  by_cases hrt : r = t
  · subst hrt
    simp [taken]
  · simp [hrt, hm]

/-- Steps that change neither the table nor what the calls hold. -/
theorem Tracks.frame (hw : Tracks w σ) (hf : u.flights = w.flights) (hc : u.created = w.created)
    {s : Stage} (flight : s.flight = (σ t).flight) (entry : s.entry = (σ t).entry)
    (strong : ∀ f, (u.arcs f).strong = (w.arcs f).strong)
    (owner : ∀ r f, (u.arcs f).owner = some r ↔ ∃ d p, Function.update σ t s r = .inside d f p) :
    Tracks u (Function.update σ t s) where
  table := by
    rw [hf, hc]
    exact hw.table
  digest := by
    rw [hf]
    exact hw.digest
  born := by
    refine hw.born_update (Nat.le_of_eq hc.symm) fun f hr => ?_
    rw [flight] at hr
    rw [hc]
    exact hw.born hr
  count f hlt := hw.count_update (hc ▸ hlt) (by rw [flight]) (by rw [hf]) (strong f)
  entry := by
    refine entry_update (fun d f hr => ?_) fun r d f _ hr => ?_
    · rw [hf]
      exact hw.entry (entry ▸ hr)
    · rw [hf]
      exact hw.entry hr
  owner := owner

theorem Tracks.joinExisting (hw : Tracks w σ) (hs : σ t = .outside) {d : String} {f : FlightId}
    (hl : w.flights.lookup d = some f) :
    Tracks (w.setArc f { w.arcs f with strong := (w.arcs f).strong + 1 })
      (Function.update σ t (.waiting d f)) where
  table := hw.table
  digest := hw.digest
  born := by
    refine hw.born_update le_rfl fun g hg => ?_
    cases hg
    exact hw.table hl
  count g hlt := by
    by_cases hg : g = f
    · subst hg
      obtain ⟨holders, hm, hyes, -⟩ := hw.count g hlt
      have ht : t ∉ holders := by
        rw [hm, hs]
        exact nofun
      refine ⟨insert t holders, mem_insert_update hm rfl, fun _ => ?_, fun h => absurd ⟨d, hl⟩ h⟩
      rw [World.setArc_self, Finset.card_insert_of_notMem ht, hyes ⟨d, hl⟩]
    · refine hw.count_update hlt ?_ Iff.rfl (by rw [World.setArc_ne _ _ hg])
      simp [hs, Stage.flight, Ne.symm hg]
  entry := by
    refine entry_update (fun e g hg => ?_) fun r e g _ hr => hw.entry hr
    cases hg
    exact hl
  owner := hw.owner_update (World.setArc_owner w rfl) (by simp [hs]) nofun

theorem Tracks.joinNew (hw : Tracks w σ) (hs : σ t = .outside) {d : String}
    (hl : w.flights.lookup d = none) :
    Tracks (({ w with flights := w.flights.insert d w.created, created := w.created + 1 } :
      World B T).setArc w.created ⟨2, none⟩) (Function.update σ t (.waiting d w.created)) where
  table he := by
    rcases DashMap.lookup_of_insert he with ⟨-, rfl⟩ | ⟨-, old⟩
    · exact Nat.lt_succ_self _
    · exact Nat.lt_succ_of_lt (hw.table old)
  digest he he' := by
    rcases DashMap.lookup_of_insert he with ⟨rfl, rfl⟩ | ⟨-, old⟩
    · rcases DashMap.lookup_of_insert he' with ⟨rfl, -⟩ | ⟨-, old'⟩
      · rfl
      · exact absurd (hw.table old') (Nat.lt_irrefl _)
    · rcases DashMap.lookup_of_insert he' with ⟨rfl, rfl⟩ | ⟨-, old'⟩
      · exact absurd (hw.table old) (Nat.lt_irrefl _)
      · exact hw.digest old old'
  born := by
    refine hw.born_update (Nat.le_succ _) fun g hg => ?_
    cases hg
    exact Nat.lt_succ_self _
  count g hlt := by
    by_cases hg : g = w.created
    · subst hg
      refine ⟨{t}, fun r => ?_, fun _ => ?_, fun h => ?_⟩
      · have nobody (r : T) : r ∈ (∅ : Finset T) ↔ (σ r).flight = some w.created :=
          iff_of_false (Finset.notMem_empty r) fun hr => Nat.lt_irrefl _ (hw.born hr)
        exact mem_insert_update nobody rfl r
      · simp
      · exact absurd ⟨d, AList.lookup_insert _⟩ h
    · refine hw.count_update (Nat.lt_of_le_of_ne (Nat.le_of_lt_succ hlt) hg) ?_ ⟨?_, ?_⟩
        (by rw [World.setArc_ne _ _ hg])
      · simp [hs, Stage.flight, Ne.symm hg]
      · rintro ⟨e, he⟩
        rcases DashMap.lookup_of_insert he with ⟨-, new⟩ | ⟨-, old⟩
        · exact absurd new hg
        · exact ⟨e, old⟩
      · rintro ⟨e, he⟩
        exact ⟨e, DashMap.lookup_insert_of_absent _ hl he⟩
  entry := by
    refine entry_update (fun e g hg => ?_) fun r e g _ hr => ?_
    · cases hg
      exact AList.lookup_insert _
    · exact DashMap.lookup_insert_of_absent _ hl (hw.entry hr)
  owner := by
    intro r g
    by_cases hg : g = w.created
    · subst hg
      rw [World.setArc_self]
      refine iff_of_false nofun ?_
      rintro ⟨e, p, he⟩
      by_cases hrt : r = t
      · subst hrt
        simp at he
      · rw [Function.update_of_ne hrt] at he
        exact absurd (hw.born (t := r) (by rw [he]; rfl)) (Nat.lt_irrefl _)
    · rw [World.setArc_ne _ _ hg]
      by_cases hrt : r = t
      · subst hrt
        simp [hw.owner, hs]
      · rw [Function.update_of_ne hrt]
        exact hw.owner r g

theorem Tracks.flightsEntry (hw : Tracks w σ) (hs : σ t = .outside) (d : String) :
    Tracks (w.flightsEntry d).2 (Function.update σ t (.waiting d (w.flightsEntry d).1)) := by
  unfold World.flightsEntry
  split
  · next f hl => exact hw.joinExisting hs hl
  · next hl => exact hw.joinNew hs hl

theorem Tracks.lock (hw : Tracks w σ) {d : String} {f : FlightId} (hs : σ t = .waiting d f)
    (hl : w.lock t f = some u) : Tracks u (Function.update σ t (.inside d f .locked)) := by
  simp only [World.lock] at hl
  split at hl
  · next hfree =>
    cases hl
    have hnone : (w.arcs f).owner = none := Option.isNone_iff_eq_none.mp hfree
    refine hw.frame (by rfl) (by rfl) (by rw [hs]; rfl) (by rw [hs]; rfl) ?_ ?_
    · intro g
      by_cases hg : g = f
      · subst hg
        simp
      · rw [World.setArc_ne _ _ hg]
    · intro r g
      by_cases hg : g = f
      · subst hg
        rw [World.setArc_self, Option.some.injEq]
        by_cases hrt : r = t
        · subst hrt
          simp
        · rw [Function.update_of_ne hrt, ← hw.owner, hnone]
          simp [Ne.symm hrt]
      · rw [World.setArc_ne _ _ hg, hw.owner]
        by_cases hrt : r = t
        · subst hrt
          simp [hs, Ne.symm hg]
        · rw [Function.update_of_ne hrt]
  · cases hl

theorem Tracks.unlock (hw : Tracks w σ) {d : String} {f : FlightId} {p : Phase}
    (hs : σ t = .inside d f p) :
    Tracks (w.unlock f) (Function.update σ t (.unlocked d f)) := by
  unfold World.unlock
  refine hw.frame (by rfl) (by rfl) (by rw [hs]; rfl) (by rw [hs]; rfl) ?_ ?_
  · intro g
    by_cases hg : g = f
    · subst hg
      simp
    · rw [World.setArc_ne _ _ hg]
  · intro r g
    by_cases hg : g = f
    · subst hg
      rw [World.setArc_self]
      refine iff_of_false nofun ?_
      rintro ⟨e, p, he⟩
      by_cases hrt : r = t
      · subst hrt
        simp at he
      · rw [Function.update_of_ne hrt] at he
        have ht := (hw.owner t g).mpr ⟨d, _, hs⟩
        rw [(hw.owner r g).mpr ⟨e, _, he⟩] at ht
        exact hrt (Option.some.inj ht)
    · rw [World.setArc_ne _ _ hg, hw.owner]
      by_cases hrt : r = t
      · subst hrt
        simp [hs, Ne.symm hg]
      · rw [Function.update_of_ne hrt]

/-- A call that drops its clone when it does not hold the lock. -/
theorem Tracks.dropClone (hw : Tracks w σ) {f : FlightId} (held : (σ t).flight = some f)
    (outside : ∀ d g p, σ t ≠ .inside d g p) :
    Tracks (w.dropFlight f) (Function.update σ t .gone) where
  table := hw.table
  digest := hw.digest
  born := hw.born_update le_rfl fun _ h => by cases h
  count g hlt := by
    by_cases hg : g = f
    · subst hg
      obtain ⟨holders, hm, hyes, hno⟩ := hw.count g hlt
      have ht : t ∈ holders := (hm t).mpr held
      have hcard := Finset.card_erase_of_mem ht
      have hpos := Finset.card_pos.mpr ⟨t, ht⟩
      refine ⟨holders.erase t, fun r => ?_, fun h => ?_, fun h => ?_⟩
      · rw [Finset.mem_erase]
        by_cases hrt : r = t
        · subst hrt
          simp [Stage.flight]
        · rw [Function.update_of_ne hrt, hm]
          exact and_iff_right hrt
      · have := hyes h
        simp only [World.dropFlight, World.setArc_self]
        omega
      · have := hno h
        simp only [World.dropFlight, World.setArc_self]
        omega
    · refine hw.count_update hlt ?_ Iff.rfl (by rw [World.dropFlight, World.setArc_ne _ _ hg])
      rw [held]
      exact iff_of_false nofun fun h => hg (Option.some.inj h).symm
  entry := entry_update (fun _ _ h => by cases h) fun r e g _ hr => hw.entry hr
  owner := hw.owner_update (World.setArc_owner w rfl) outside nofun

theorem Tracks.dropFlight (hw : Tracks w σ) {f : FlightId}
    (hs : (∃ d, σ t = .unlocked d f) ∨ σ t = .released f) :
    Tracks (w.dropFlight f) (Function.update σ t .gone) := by
  rcases hs with ⟨d, hs⟩ | hs
  · exact hw.dropClone (by rw [hs]; rfl) (by simp [hs])
  · exact hw.dropClone (by rw [hs]; rfl) (by simp [hs])

omit [DecidableEq T] in
/-- Nobody else holds a flight whose reference count is the one that `release_flight` removes. -/
theorem Tracks.alone (hw : Tracks w σ) {d : String} {f : FlightId}
    (hl : w.flights.lookup d = some f) (h2 : (w.arcs f).strong = 2) (ht : (σ t).flight = some f)
    {s : T} (hs : (σ s).flight = some f) : s = t := by
  obtain ⟨holders, hm, hyes, -⟩ := hw.count f (hw.table hl)
  have hc : holders.card = 1 := by
    have := hyes ⟨d, hl⟩
    omega
  obtain ⟨r, hr⟩ := Finset.card_eq_one.mp hc
  have hsr : s = r := Finset.mem_singleton.mp (hr ▸ (hm s).mpr hs)
  have htr : t = r := Finset.mem_singleton.mp (hr ▸ (hm t).mpr ht)
  exact hsr.trans htr.symm

theorem Tracks.remove (hw : Tracks w σ) {d : String} {f : FlightId} (hs : σ t = .unlocked d f)
    (hl : w.flights.lookup d = some f) (h2 : (w.arcs f).strong = 2) :
    Tracks (({ w with flights := w.flights.erase d } : World B T).dropFlight f)
      (Function.update σ t (.released f)) where
  table h := hw.table (DashMap.lookup_of_erase h)
  digest h h' := hw.digest (DashMap.lookup_of_erase h) (DashMap.lookup_of_erase h')
  born := hw.born_update le_rfl fun g hg => hw.born (t := t) (by rw [hs]; exact hg)
  count g hlt := by
    have same : (Stage.released f).flight = some g ↔ (σ t).flight = some g := by
      rw [hs]
      rfl
    by_cases hg : g = f
    · subst hg
      obtain ⟨holders, hm, hyes, hno⟩ := hw.count g hlt
      refine ⟨holders, fun r => by rw [flight_update same, hm], fun h => ?_, fun _ => ?_⟩
      · obtain ⟨e, he⟩ := h
        obtain rfl := hw.digest hl (DashMap.lookup_of_erase he)
        exact absurd he (by simp [World.dropFlight])
      · have := hyes ⟨d, hl⟩
        simp only [World.dropFlight, World.setArc_self]
        omega
    · refine hw.count_update hlt same ?_ (by rw [World.dropFlight, World.setArc_ne _ _ hg])
      refine ⟨fun ⟨e, he⟩ => ⟨e, DashMap.lookup_of_erase he⟩, fun ⟨e, he⟩ => ?_⟩
      have hed : e ≠ d := by
        rintro rfl
        exact hg (Option.some.inj (he.symm.trans hl))
      exact ⟨e, (AList.lookup_erase_ne hed).trans he⟩
  entry := by
    refine entry_update (fun _ _ h => by cases h) fun r e g hrt hr => ?_
    have he := hw.entry hr
    have hed : e ≠ d := by
      rintro rfl
      obtain rfl := Option.some.inj (he.symm.trans hl)
      exact hrt (hw.alone hl h2 (by rw [hs]; rfl) (Stage.flight_of_entry hr))
    exact (AList.lookup_erase_ne hed).trans he
  owner := by
    refine hw.owner_update ?_ (by simp [hs]) nofun
    exact World.setArc_owner { w with flights := w.flights.erase d } rfl

/-- A release that leaves the entry: somebody else holds the flight. -/
theorem Tracks.keep (hw : Tracks w σ) {d : String} {f : FlightId} (hs : σ t = .unlocked d f) :
    Tracks w (Function.update σ t (.released f)) where
  table := hw.table
  digest := hw.digest
  born := hw.born_update le_rfl fun g hg => hw.born (t := t) (by rw [hs]; exact hg)
  count g hlt := hw.count_update hlt (by rw [hs]; rfl) Iff.rfl rfl
  entry := entry_update (fun _ _ h => by cases h) fun r e g _ hr => hw.entry hr
  owner := hw.owner_update (fun _ => rfl) (by simp [hs]) nofun

theorem Tracks.releaseFlight (hw : Tracks w σ) {d : String} {f : FlightId}
    (hs : σ t = .unlocked d f) :
    Tracks (w.releaseFlight d f) (Function.update σ t (.released f)) := by
  unfold World.releaseFlight
  split
  · exact hw.keep hs
  · next g hl =>
    split
    · next h =>
      obtain ⟨rfl, h2⟩ := h
      exact hw.remove hs hl h2
    · exact hw.keep hs

/-- Changes of phase. -/
theorem Tracks.quiet (hw : Tracks w σ) (hf : u.flights = w.flights) (hc : u.created = w.created)
    (ha : u.arcs = w.arcs) {s : Stage}
    (hs : s = σ t ∨ ∃ d f p q, σ t = .inside d f p ∧ s = .inside d f q) :
    Tracks u (Function.update σ t s) := by
  refine hw.frame hf hc ?_ ?_ (fun f => by rw [ha]) fun r f => ?_
  · rcases hs with rfl | ⟨d, f, p, q, hs, rfl⟩
    · rfl
    · rw [hs]
      rfl
  · rcases hs with rfl | ⟨d, f, p, q, hs, rfl⟩
    · rfl
    · rw [hs]
      rfl
  · rw [ha, hw.owner]
    by_cases hrt : r = t
    · subst hrt
      rw [Function.update_self]
      rcases hs with rfl | ⟨d, g, p, q, hs, rfl⟩
      · rfl
      · rw [hs]
        simp
    · rw [Function.update_of_ne hrt]

end

section
variable {B : CacheBackend} {P T : Type} [DecidableEq T] {X : Externals P} {policy : CachePolicy}
variable {w u : World B T} {h : History P T} {t : T} {op : Op}

theorem Task.admits {task : Task} {done : Done P} (hr : task.rule X policy done op) :
    (stageOf done).Admits op := by
  cases task with
  | getOrLoad request =>
    match op with
    | .flightsEntry d => exact hr.1
    | .lock f => exact hr
    | .unlock f =>
      obtain ⟨g, key, p, -, hs, -⟩ := hr
      exact ⟨key.digest, p, hs⟩
    | .releaseFlight d f => exact hr
    | .dropFlight f => exact hr
    | .backend _ | .nowMs | .record _ | .loaderStart | .loaderFinish | .databaseRead
    | .databaseWrite => trivial
  | write n =>
    match op with
    | .flightsEntry _ | .lock _ | .unlock _ | .releaseFlight _ _ | .dropFlight _ => exact hr.elim
    | .backend _ | .nowMs | .record _ | .loaderStart | .loaderFinish | .databaseRead
    | .databaseWrite => trivial

/-- Every step of a call keeps the table in order. -/
theorem Tracks.performed {σ : T → Stage} (hi : Tracks w σ) {ch : Choice B P} {r : op.Res P}
    (ha : (σ t).Admits op) (hm : (machine B P T).perform t op ch w = some (r, u)) :
    Tracks u (Function.update σ t ((σ t).next op r)) := by
  match op with
  | .flightsEntry d =>
    obtain ⟨rfl, rfl⟩ := Prod.mk.inj (Option.some.inj hm)
    rw [show σ t = .outside from ha]
    exact hi.flightsEntry ha d
  | .lock f =>
    obtain ⟨d, hs⟩ := ha
    obtain ⟨v, hv, he⟩ := Option.map_eq_some_iff.mp hm
    obtain ⟨-, rfl⟩ := Prod.mk.inj he
    rw [hs]
    exact hi.lock hs hv
  | .unlock f =>
    obtain ⟨d, p, hs⟩ := ha
    obtain ⟨-, rfl⟩ := Prod.mk.inj (Option.some.inj hm)
    rw [hs]
    exact hi.unlock hs
  | .releaseFlight d f =>
    obtain ⟨-, rfl⟩ := Prod.mk.inj (Option.some.inj hm)
    rw [show σ t = .unlocked d f from ha]
    exact hi.releaseFlight ha
  | .dropFlight f =>
    obtain ⟨-, rfl⟩ := Prod.mk.inj (Option.some.inj hm)
    rw [Stage.next_dropFlight ha]
    exact hi.dropFlight ha
  | .backend o =>
    cases hm
    exact hi.quiet (by rfl) (by rfl) (by rfl) (Stage.next_of_quiet (by rfl) _ _)
  | .nowMs | .record _ | .loaderStart | .loaderFinish | .databaseRead | .databaseWrite =>
    cases hm
    exact hi.quiet (by rfl) (by rfl) (by rfl) (Stage.next_of_quiet (by rfl) _ _)

theorem Tracks.step (hi : Tracks w (stages h)) {ch : Choice B P} {r : op.Res P}
    (ha : (stages h t).Admits op)
    (hm : (machine B P T).perform t op ch w = some (r, u)) :
    Tracks u (stages (⟨t, op, r⟩ :: h)) := by
  rw [stages_cons]
  exact hi.performed ha hm

theorem tracks_preserved {A : Restriction T Op (Op.Res P) (Choice B P) (World B T)}
    {tasks : T → Task} :
    Preserves (machine B P T) A (fun t => (tasks t).rule X policy) fun w h => Tracks w (stages h) :=
  fun _ _ _ _ _ _ _ hi hr _ hm => hi.step (Task.admits hr) hm

theorem tracks_initial {tasks : T → Task} {state : B.State} :
    Tracks (initial X policy tasks state).world (stages (initial X policy tasks state).history) :=
  tracks_new state

/-- A task that is done with its program holds no flight lock. -/
theorem Task.End.not_inside {task : Task} {reply : Reply P} {done : Done P}
    (h : task.End X policy reply done) {d : String} {f : FlightId} {p : Phase} :
    stageOf done ≠ .inside d f p := by
  intro hs
  cases task with
  | getOrLoad request =>
    obtain ⟨_, -, hend⟩ := h
    rcases hend.stage with h | h <;> rw [hs] at h <;> cases h
  | write n =>
    rw [show stageOf done = .outside from h] at hs
    cases hs

omit [DecidableEq T] in
private theorem perform_isSome (hop : ∀ f, op ≠ .lock f) (ch : Choice B P) :
    ((machine B P T).perform t op ch w).isSome := by
  cases op with
  | lock f => exact absurd rfl (hop f)
  | _ => rfl

omit [DecidableEq T] in
/-- Calls never wait for each other in a circle: whoever holds a flight lock can go on. -/
theorem Tracks.enabled {α : Type} {c : Config T Op (Op.Res P) (World B T) α} {σ : T → Stage}
    (hi : Tracks c.world σ)
    (waits : ∀ t f next, c.tasks t = .call (.lock f) next → ∃ d, σ t = .waiting d f)
    (returned : ∀ t a, c.tasks t = .ret a → ∀ d f p, σ t ≠ .inside d f p)
    (hn : ¬ c.Finished) : c.Enabled (machine B P T) := by
  simp only [Config.Finished, not_forall, not_exists] at hn
  obtain ⟨t, ht⟩ := hn
  cases hp : c.tasks t with
  | ret a => exact absurd hp (ht a)
  | call op next =>
    by_cases hop : ∀ f, op ≠ .lock f
    · exact ⟨t, op, next, hp, perform_isSome hop⟩
    · push Not at hop
      obtain ⟨f, rfl⟩ := hop
      cases ho : (c.world.arcs f).owner with
      | none =>
        refine ⟨t, _, next, hp, fun ch => ?_⟩
        simp [machine, World.lock, ho]
      | some s =>
        obtain ⟨d, p, hs⟩ := (hi.owner s f).mp ho
        cases hq : c.tasks s with
        | ret a => exact absurd hs (returned s a hq d f p)
        | call op' next' =>
          refine ⟨s, op', next', hq, perform_isSome fun g hg => ?_⟩
          subst hg
          obtain ⟨e, he⟩ := waits s g next' hq
          rw [hs] at he
          cases he

theorem enabled_of_unfinished {tasks : T → Task}
    {c : Config T Op (Op.Res P) (World B T) (Reply P)} (hi : Tracks c.world (stages c.history))
    (hc : c.Obeys (fun t => (tasks t).rule X policy) fun t => (tasks t).End X policy)
    (hn : ¬ c.Finished) : c.Enabled (machine B P T) :=
  hi.enabled (fun _ _ _ hp => Task.admits (hc.allowed hp))
    (fun _ _ hp _ _ _ => (hc.returned hp).not_inside) hn

/-- The loader of a call runs between the acquisition and the release of its flight lock. -/
def LoadingUnderLock (h : History P T) (t : T) (digest : String) : Prop :=
  (∃ f p, stages h t = .inside digest f p) ∧ ⟨t, .loaderStart, ()⟩ ∈ h ∧ ⟨t, .loaderFinish, ()⟩ ∉ h

/-- In every state of every run, whatever fails, at most one call is inside the flight section of
a digest. -/
theorem flight_exclusive {A : Restriction T Op (Op.Res P) (Choice B P) (World B T)}
    {tasks : T → Task} {state : B.State} {d : Config T Op (Op.Res P) (World B T) (Reply P)}
    (run : Reaches (machine B P T) A (initial X policy tasks state) d) {s : T} {digest : String}
    (hs : LoadingUnderLock d.history s digest) (ht : LoadingUnderLock d.history t digest) :
    s = t := by
  obtain ⟨hi, -⟩ := run.preserves tracks_preserved (obeys_initial tasks state) tracks_initial
  obtain ⟨⟨f, p, hs⟩, -⟩ := hs
  obtain ⟨⟨g, q, ht⟩, -⟩ := ht
  exact hi.exclusive hs ht

end
end RbatisCache.CacheInterceptor
