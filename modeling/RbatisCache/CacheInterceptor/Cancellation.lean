import RbatisCache.CacheInterceptor.FailOpen
import RbatisCache.CacheInterceptor.Lateness
import RbatisCache.Interleaving.Cancellation

/-! Calls that are dropped. The future of a call may be dropped at any of its await points, which drops
its locals: the guard of its flight, if it has it, and its clone of the flight. -/
namespace RbatisCache.CacheInterceptor
open Interleaving Interleaving.Prog

/-- The operations that a call awaits. -/
def Op.isAwaited : Op → Bool
  | .backend _ | .lock _ | .databaseRead => true
  | .nowMs | .record _ | .flightsEntry _ | .unlock _ | .releaseFlight _ _ | .dropFlight _
  | .loaderStart | .loaderFinish | .databaseWrite => false

section
variable {P : Type}

/-- How far a call is that may be dropped while it waits for its lock. -/
def Stage.after : (op : Op) → op.Res P → Stage → Stage
  | .dropFlight _, _, .waiting _ _ => .gone
  | op, r, s => s.next op r

def heldBy (done : Done P) : Stage := done.foldr (fun e s => s.after e.1 e.2) .outside

/-- What the drop of the locals does, the last one first. -/
def dropLocals (done : Done P) : Prog Op (Op.Res P) Unit :=
  match stageOf done with
  | .inside _ flight _ => abandonFlight flight
  | .waiting _ flight | .unlocked _ flight | .released flight => perform (Op.dropFlight flight)
  | .outside | .gone => return ()

section
variable (X : Externals P) (policy : CachePolicy)

/-- A task that may be dropped has a reply if it has not been. -/
def Task.droppable (task : Task) (patience : Nat) : Prog Op (Op.Res P) (Option (Reply P)) :=
  (task.program X policy).droppable Op.isAwaited dropLocals patience []

/-- What the drop of a call's locals may do. -/
def Stage.Quits : Stage → Op → Prop
  | s, .unlock f => ∃ d p, s = .inside d f p
  | s, .dropFlight f => s.flight = some f ∧ ∀ d g p, s ≠ .inside d g p
  | _, _ => False

def Task.droppedRule (task : Task) (done : Done P) (op : Op) : Prop :=
  heldBy done = stageOf done ∧ task.fullRule X policy done op ∨ (heldBy done).Quits op

structure Task.DroppedEnd (task : Task) (reply : Option (Reply P)) (done : Done P) : Prop where
  clear : heldBy done = .outside ∨ heldBy done = .gone
  replied : ∀ r, reply = some r → task.FullEnd X policy r done

end

variable {X : Externals P} {policy : CachePolicy} {task : Task} {done : Done P} {op : Op} {s : Stage}

@[simp] theorem heldBy_cons (op : Op) (r : op.Res P) (done : Done P) :
    heldBy (⟨op, r⟩ :: done) = (heldBy done).after op r := rfl

theorem Stage.after_of_admits (h : s.Admits op) (r : op.Res P) : s.after op r = s.next op r := by
  cases op with
  | dropFlight f =>
    rcases h with ⟨d, rfl⟩ | rfl
    · rfl
    · rfl
  | _ => cases s <;> rfl

theorem Stage.after_of_quits {f : FlightId} {r : (Op.dropFlight f).Res P}
    (h : s.Quits (.dropFlight f)) : s.after (.dropFlight f) r = .gone := by
  obtain ⟨held, outside⟩ := h
  cases s with
  | outside | gone => cases held
  | inside d g p => exact absurd rfl (outside d g p)
  | waiting _ _ | unlocked _ _ | released _ => rfl

/-! ### The calls obey -/

theorem Task.clear_of_end {reply : Reply P} (h : task.End X policy reply done) :
    stageOf done = .outside ∨ stageOf done = .gone := by
  cases task with
  | getOrLoad request =>
    obtain ⟨_, -, ends⟩ := h
    exact ends.stage
  | write n => exact .inl h

theorem obeys_dropLocals {rule : Done P → Op → Prop}
    (quits : ∀ done op, (heldBy done).Quits op → rule done op) (same : heldBy done = stageOf done) :
    (dropLocals done).Obeys rule (fun _ after => heldBy after = .outside ∨ heldBy after = .gone)
      done := by
  unfold dropLocals
  split
  -- the guard is dropped before the clone, which is declared before it
  · next d f p hs =>
    rw [← same] at hs
    refine ⟨quits _ _ ?_, fun _ => ⟨quits _ _ ?_, fun _ => .inr ?_⟩⟩
    · exact hs ▸ ⟨d, p, rfl⟩
    · simp [hs, Stage.Quits, Stage.after, Stage.next, Stage.flight]
    · simp [hs, Stage.after, Stage.next]
  all_goals
    rename_i hs
    rw [← same] at hs
  · refine ⟨quits _ _ ?_, fun _ => .inr ?_⟩
    · simp [hs, Stage.Quits, Stage.flight]
    · simp [hs, Stage.after]
  · refine ⟨quits _ _ ?_, fun _ => .inr ?_⟩
    · simp [hs, Stage.Quits, Stage.flight]
    · simp [hs, Stage.after, Stage.next]
  · refine ⟨quits _ _ ?_, fun _ => .inr ?_⟩
    · simp [hs, Stage.Quits, Stage.flight]
    · simp [hs, Stage.after, Stage.next]
  · exact .inl hs
  · exact .inr hs

private theorem obeys_droppable (task : Task) (patience : Nat) :
    (task.droppable X policy patience).Obeys (task.droppedRule X policy)
      (task.DroppedEnd X policy) [] := by
  refine Obeys.droppable (K := fun done => heldBy done = stageOf done)
    (fun done op same allowed => .inl ⟨same, allowed⟩) (fun done op r same allowed => ?_)
    (fun reply done same ends => ⟨?_, ?_⟩)
    (fun done same => (obeys_dropLocals (fun _ _ quits => .inr quits) same).mono
      fun _ _ clear => ⟨clear, nofun⟩) rfl
    ((obeys_program task).and (obeys_task_sourced task))
  · rw [heldBy_cons, same, stageOf_cons]
    exact Stage.after_of_admits (Task.admits allowed.1) r
  · rw [same]
    exact Task.clear_of_end ends.1
  · intro r hr
    cases hr
    exact ends

end

/-! ### The flights -/

section
variable {B : CacheBackend} {P T : Type} [DecidableEq T] {X : Externals P} {policy : CachePolicy}
variable {tasks : T → Task} {patience : T → Nat} {state : B.State}

/-- Any number of tasks that share one interceptor and may be dropped. -/
def dropping (X : Externals P) (policy : CachePolicy) (tasks : T → Task) (patience : T → Nat)
    (state : B.State) : Config T Op (Op.Res P) (World B T) (Option (Reply P)) :=
  ⟨.new state, [], fun t => (tasks t).droppable X policy (patience t)⟩

def holdings (h : History P T) (t : T) : Stage := heldBy (h.own t)

theorem holdings_cons (h : History P T) (t : T) (op : Op) (r : op.Res P) :
    holdings (⟨t, op, r⟩ :: h) = Function.update (holdings h) t ((holdings h t).after op r) := by
  funext s
  by_cases hs : s = t
  · subst hs
    simp [holdings]
  · rw [Function.update_of_ne hs, holdings, holdings, History.own_cons_ne (Ne.symm hs)]

/-- The loader of a call that has not been dropped runs under its flight lock. -/
def LoadingAlive (h : History P T) (t : T) (digest : String) : Prop :=
  (∃ f p, holdings h t = .inside digest f p) ∧ ⟨t, .loaderStart, ()⟩ ∈ h ∧
    ⟨t, .loaderFinish, ()⟩ ∉ h

omit [DecidableEq T] in
/-- Nobody holds a flight: what is in the table is held by the table alone, all else is freed. -/
structure Unheld (w : World B T) : Prop where
  unlocked : ∀ f, (w.arcs f).owner = none
  kept : ∀ d f, w.flights.lookup d = some f → (w.arcs f).strong = 1
  freed : ∀ f, f < w.created → (¬ ∃ d, w.flights.lookup d = some f) → (w.arcs f).strong = 0

/-- Every step of a call that may be dropped keeps the table in order. -/
theorem Tracks.after {w u : World B T} {σ : T → Stage} {t : T} {op : Op} {r : op.Res P}
    {ch : Choice B P} (tracks : Tracks w σ) (moves : (σ t).Admits op ∨ (σ t).Quits op)
    (done : (machine B P T).perform t op ch w = some (r, u)) :
    Tracks u (Function.update σ t ((σ t).after op r)) := by
  have goes (admits : (σ t).Admits op) : Tracks u (Function.update σ t ((σ t).after op r)) := by
    rw [Stage.after_of_admits admits]
    exact tracks.performed admits done
  rcases moves with admits | quits
  · exact goes admits
  · match op with
    | .unlock f => exact goes quits
    | .dropFlight f =>
      cases done
      rw [Stage.after_of_quits quits]
      exact tracks.dropClone quits.1 quits.2

theorem Task.moves {task : Task} {done : Done P} {op : Op}
    (allowed : task.droppedRule X policy done op) :
    (heldBy done).Admits op ∨ (heldBy done).Quits op := by
  rcases allowed with ⟨same, allowed⟩ | quits
  · rw [same]
    exact .inl (Task.admits allowed.1)
  · exact .inr quits

private theorem tracks_dropping {A : Restriction T Op (Op.Res P) (Choice B P) (World B T)} :
    Preserves (machine B P T) A (fun t => (tasks t).droppedRule X policy)
      fun w h => Tracks w (holdings h) := by
  intro t op ch w h r u tracks allowed _ done
  rw [holdings_cons]
  exact tracks.after (Task.moves allowed) done

/-- Whoever waits for a lock waits for a call that can go on. -/
theorem enabled_of_dropping {α : Type} {c : Config T Op (Op.Res P) (World B T) α}
    (tracks : Tracks c.world (holdings c.history))
    (moves : ∀ t op next, c.tasks t = .call op next →
      (holdings c.history t).Admits op ∨ (holdings c.history t).Quits op)
    (clear : ∀ t a, c.tasks t = .ret a →
      holdings c.history t = .outside ∨ holdings c.history t = .gone)
    (unfinished : ¬ c.Finished) : c.Enabled (machine B P T) := by
  refine tracks.enabled (fun t f next hp => ?_) (fun t a hp d f p => ?_) unfinished
  · exact (moves t _ next hp).resolve_right id
  · rcases clear t a hp with h | h
    · simp [h]
    · simp [h]

omit [DecidableEq T] in
private theorem unheld_of_tracks {w : World B T} {σ : T → Stage} (tracks : Tracks w σ)
    (clear : ∀ t, σ t = .outside ∨ σ t = .gone) : Unheld w := by
  have none (t : T) (f : FlightId) : (σ t).flight ≠ some f := by
    rcases clear t with h | h
    · simp [h, Stage.flight]
    · simp [h, Stage.flight]
  have empty {f : FlightId} {holders : Finset T} (hm : ∀ t, t ∈ holders ↔ (σ t).flight = some f) :
      holders.card = 0 := by
    rw [Finset.card_eq_zero]
    exact Finset.eq_empty_of_forall_notMem fun t ht => none t f ((hm t).mp ht)
  refine ⟨fun f => ?_, fun d f hl => ?_, fun f hf away => ?_⟩
  · cases ho : (w.arcs f).owner with
    | none => rfl
    | some t =>
      obtain ⟨d, p, hs⟩ := (tracks.owner t f).mp ho
      exact absurd (by rw [hs]; rfl) (none t f)
  · obtain ⟨holders, hm, held, -⟩ := tracks.count f (tracks.table hl)
    rw [held ⟨d, hl⟩, empty hm]
  · obtain ⟨holders, hm, -, freed⟩ := tracks.count f hf
    rw [freed away, empty hm]

theorem bounded_dropLocals (done : Done P) : (dropLocals done).Bounded 3 := by
  unfold dropLocals
  split
  · exact bounded_abandonFlight _
  · exact .call fun _ => .ret 2 ()
  · exact .call fun _ => .ret 2 ()
  · exact .call fun _ => .ret 2 ()
  · exact .ret 3 ()
  · exact .ret 3 ()

/-- A task with patience enough is not dropped. -/
theorem droppable_eq_program (task : Task) {patience : Nat} (patient : 36 ≤ patience) :
    task.droppable X policy patience = (task.program X policy).bind fun r => .ret (some r) :=
  (bounded_program task).droppable_eq patient

/-- What holds whenever some tasks have run that may be dropped. -/
theorem tracks_of_dropping {A : Restriction T Op (Op.Res P) (Choice B P) (World B T)}
    {d : Config T Op (Op.Res P) (World B T) (Option (Reply P))}
    (run : Reaches (machine B P T) A (dropping X policy tasks patience state) d) :
    Tracks d.world (holdings d.history) ∧
      d.Obeys (fun t => (tasks t).droppedRule X policy) fun t => (tasks t).DroppedEnd X policy :=
  run.preserves tracks_dropping (fun t => obeys_droppable (tasks t) (patience t)) (tracks_new state)

/-- Wherever calls are dropped: two loaders never run under the lock of one digest, and every run comes
to its end, with no flight locked or held by anything but the table. -/
theorem dropped_calls_release (X : Externals P) (policy : CachePolicy) (tasks : T → Task)
    (patience : T → Nat) (state : B.State) :
    (∀ (A : Restriction T Op (Op.Res P) (Choice B P) (World B T))
      (d : Config T Op (Op.Res P) (World B T) (Option (Reply P))),
      Reaches (machine B P T) A (dropping X policy tasks patience state) d →
      ∀ s t digest, LoadingAlive d.history s digest → LoadingAlive d.history t digest → s = t) ∧
    ∀ [Fintype T], Inevitable (machine B P T) Restriction.none
      (fun c => c.Finished ∧ Unheld c.world) (dropping X policy tasks patience state) := by
  constructor
  · intro A d run s t digest hs ht
    obtain ⟨⟨f, p, hs⟩, -⟩ := hs
    obtain ⟨⟨g, q, ht⟩, -⟩ := ht
    exact (tracks_of_dropping run).1.exclusive hs ht
  · intro _
    refine inevitable_of_bounded
      (fun c => Reaches (machine B P T) Restriction.none (dropping X policy tasks patience state) c)
      (fun _ => 18 + 3) (fun c d run step => run.tail step) (fun c run unfinished => ?_)
      (fun c run finished => ⟨finished, ?_⟩) .refl
      fun t => (bounded_program (tasks t)).droppable bounded_dropLocals
    · obtain ⟨tracks, obeys⟩ := tracks_of_dropping run
      exact enabled_of_dropping tracks (fun t op next hp => Task.moves (obeys.allowed hp))
        (fun t reply hp => (obeys.returned hp).clear) unfinished
    · obtain ⟨tracks, obeys⟩ := tracks_of_dropping run
      refine unheld_of_tracks tracks fun t => ?_
      obtain ⟨reply, hp⟩ := finished t
      exact (obeys.returned hp).clear

end

/-! ### The payloads -/

section
variable {B : CacheBackend} {P N T : Type} [DecidableEq N] [DecidableEq T] {X : Externals P}
variable {policy : CachePolicy} {tasks : T → Task} {patience : T → Nat} {L : B.Lagging} {node : T → N}
variable {state : B.State}

end

/-- A call that is dropped after its put, a writer, and a call after it. -/
def Sample.dropped : Option Bool → Task
  | some true => .write "ns"
  | some false | none => .getOrLoad ⟨Sample.keyInput, false⟩

def Sample.patience : Option Bool → Nat
  | some false => 11
  | some true | none => 36

end RbatisCache.CacheInterceptor
