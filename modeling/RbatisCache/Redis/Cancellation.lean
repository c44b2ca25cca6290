import RbatisCache.Interleaving.Cancellation
import RbatisCache.Redis.Overlap

/-! Operations that are dropped. An operation of the client awaits nothing but its command; when it is
dropped there it has counted nothing yet. -/
namespace RbatisCache.Redis.Concurrent
open Interleaving RedisCacheBackend
open Interleaving.Prog (perform)

def Op.isAwaited : Op → Bool
  | .send _ => true
  | .openUntil | .nowMs | .count _ | .resetFailures | .addFailure | .openCircuit _ => false

/-- The operations that change neither the breaker nor the metrics. -/
def Op.Looks : Op → Prop
  | .openUntil | .nowMs | .send _ => True
  | .count _ | .resetFailures | .addFailure | .openCircuit _ => False

def Quiet (done : Done) : Prop := ∀ e ∈ done, e.1.Looks

section
variable (blake3 : Bytes → String) (config : RedisCacheConfig)

/-- An operation that may be dropped while its command is under way has a reply if it has not been. -/
def droppable (op : BackendOp) (patience : Nat) : Code (Option Reply) :=
  (program blake3 config op).droppable Op.isAwaited (fun _ => return ()) patience []

end

/-- What an operation has come to, if it has not been dropped. -/
inductive Came (config : RedisCacheConfig) (op : BackendOp) (command : Command) (done : Done) :
    Option Redis.Event → Prop
  | dropped (quiet : Quiet done) : Came config op command done none
  | ended {e : Redis.Event} {ran : Done} (own : done = rest op e ++ ran)
      (course : Ran config command e ran) : Came config op command done (some e)

def Answered (reply : Option Reply) (event : Option Redis.Event) : Prop :=
  match reply, event with
  | none, none => True
  | some reply, some e => e = .succeeded ↔ ¬ reply.1.Failed reply.2
  | _, _ => False

section
variable {blake3 : Bytes → String} {config : RedisCacheConfig} {done : Done}

private theorem only_recordFailure : (recordFailure config).Only fun op => op.isAwaited = false := by
  unfold recordFailure
  simp only [Prog.bind_eq, Prog.perform_bind]
  refine ⟨rfl, fun old => ?_⟩
  dsimp only
  by_cases reached : config.threshold ≤ saturatingSucc old
  · rw [if_pos reached]
    exact ⟨rfl, fun _ => ⟨rfl, fun _ => ⟨rfl, fun _ => ⟨rfl, fun _ => trivial⟩⟩⟩⟩
  · rw [if_neg reached]
    trivial

private theorem only_settle {R : Type} (outcome : Outcome R) :
    (settle config outcome).Only fun op => op.isAwaited = false := by
  cases outcome with
  | success value => exact ⟨rfl, fun _ => ⟨rfl, fun _ => trivial⟩⟩
  | error message => exact ⟨rfl, fun _ => only_recordFailure.bind fun _ => trivial⟩
  | timeout => exact ⟨rfl, fun _ => only_recordFailure.bind fun _ => trivial⟩

/-- A command is sent before anything has been counted. -/
def sendRule (done : Done) (op : Op) : Prop := op.isAwaited = true → Quiet done

private theorem sendRule_of_unawaited {op : Op} (h : op.isAwaited = false) : sendRule done op := by
  intro awaited
  rw [h] at awaited
  cases awaited

private theorem obeys_run (command : Command) :
    (run config command).Obeys sendRule (fun _ _ => True) [] := by
  unfold run
  simp only [Prog.bind_eq, Prog.perform_bind]
  refine ⟨sendRule_of_unawaited rfl, fun u => ⟨sendRule_of_unawaited rfl, fun now => ?_⟩⟩
  dsimp only
  by_cases early : now < u
  · rw [if_pos early]
    trivial
  · rw [if_neg early]
    refine ⟨fun _ => ?_, fun outcome => ?_⟩
    · simp [Quiet, Op.Looks]
    · exact (only_settle outcome).obeys (K := fun _ => True)
        (fun _ _ unawaited _ => sendRule_of_unawaited unawaited) (fun _ _ _ _ _ => trivial) trivial

private theorem obeys_program (op : BackendOp) :
    (program blake3 config op).Obeys sendRule (fun _ _ => True) [] := by
  cases op with
  | get key | put key value ttl =>
    refine ((obeys_run _).mono fun result done _ => ?_).bind
    trivial
  | generation nameSpace =>
    refine Prog.Obeys.bind (Prog.Obeys.bind ((obeys_run _).mono fun result done _ => ?_))
    cases result with
    | error e => trivial
    | ok gen => trivial
  | bumpGeneration nameSpace =>
    refine Prog.Obeys.bind (Prog.Obeys.bind ((obeys_run _).mono fun result done _ => ?_))
    cases result with
    | error e => trivial
    | ok gen => exact ⟨sendRule_of_unawaited rfl, fun _ => trivial⟩

private theorem looks_of_awaited {op : Op} (awaited : op.isAwaited = true) : op.Looks := by
  cases op with
  | send command => trivial
  | _ => cases awaited

private theorem ensures_droppable (op : BackendOp) (patience : Nat) :
    (droppable blake3 config op patience).Ensures (fun reply done =>
      ∃ event, Came config op (command blake3 config op) done event ∧ Answered reply event) [] := by
  refine Prog.Obeys.droppable_at (K := fun _ => True) (fun _ _ _ _ => trivial)
    (fun _ _ _ _ _ => trivial) (fun reply done _ ends => ?_)
    (fun done op _ allowed awaited => ?_) (fun done op r _ allowed awaited => ?_) trivial
    (Prog.Obeys.and (ensures_program op) (obeys_program op))
  · obtain ⟨⟨e, ran, own, course, answered⟩, -⟩ := ends
    exact ⟨some e, .ended own course, answered⟩
  · exact ⟨none, .dropped (allowed.2 awaited), trivial⟩
  · exact ⟨none, .dropped (List.forall_mem_cons.mpr
      ⟨looks_of_awaited awaited, allowed.2 awaited⟩), trivial⟩

theorem Came.countP {op : BackendOp} {command : Command} {event : Option Redis.Event}
    (came : Came config op command done event) (c : Counter) :
    done.countP (fun e => e.1 = Op.count c) = (event.any fun e => counts op e c).toNat := by
  cases came with
  | dropped quiet =>
    refine List.countP_eq_zero.mpr fun e he => ?_
    have looks := quiet e he
    intro counted
    rw [of_decide_eq_true counted] at looks
    exact looks
  | ended own course =>
    rw [own, course.countP c]
    rfl

end

section
variable {T : Type} [DecidableEq T] {blake3 : Bytes → String} {config : RedisCacheConfig}
variable {ops : T → BackendOp} {patience : T → Nat}
variable {d : Config T Op Op.Res RedisCacheBackend (Option Reply)}

/-- Operations of one client that may be dropped. -/
def dropping (blake3 : Bytes → String) (config : RedisCacheConfig) (ops : T → BackendOp)
    (patience : T → Nat) : Config T Op Op.Res RedisCacheBackend (Option Reply) :=
  ⟨connect config, [], fun t => droppable blake3 config (ops t) (patience t)⟩

private theorem came_of_run
    (run : Reaches (machine T) FewFailures (dropping blake3 config ops patience) d)
    {t : T} {reply : Option Reply} (returned : d.tasks t = .ret reply) :
    ∃ event, Came config (ops t) (command blake3 config (ops t)) (d.history.own t) event ∧
      Answered reply event :=
  (run.obeys fun t => ensures_droppable (ops t) (patience t)).returned returned

/-- However the operations of a client overlap and wherever they are dropped: one that is dropped leaves
the breaker and the metrics as they are, and the others follow the breaker. When all have ended, fewer
failures than the threshold are left, and the metrics count what those that were not dropped have come
to. -/
theorem dropped_operations_count_nothing [Fintype T]
    (run : Reaches (machine T) FewFailures (dropping blake3 config ops patience) d) :
    (∀ t, d.tasks t = .ret none → Quiet (d.history.own t)) ∧
    (∀ t reply, d.tasks t = .ret (some reply) → ∃ e, Judged config d.history t e ∧
      (e = .succeeded ↔ ¬ reply.1.Failed reply.2)) ∧
    (d.Finished → d.world.consecutiveFailures.toNat < max config.circuitFailureThreshold.toNat 1 ∧
      ∃ events : T → Option Redis.Event, (∀ t, events t = none ↔ d.tasks t = .ret none) ∧
        (∀ t e, events t = some e → Judged config d.history t e) ∧
        ∀ c, (RedisMetrics.counter d.world.metrics c).toNat =
          (Finset.univ.filter fun t => (events t).any fun e => counts (ops t) e c).card % 2 ^ 64) := by
  have kept := kept_of_run run
  refine ⟨fun t dropped => ?_, fun t reply returned => ?_, fun finished => ?_⟩
  · obtain ⟨event, came, answered⟩ := came_of_run run dropped
    cases came with
    | dropped quiet => exact quiet
    | ended own course => exact answered.elim
  · obtain ⟨event, came, answered⟩ := came_of_run run returned
    cases came with
    | dropped quiet => exact answered.elim
    | ended own course => exact ⟨_, course.judged kept.told own, answered⟩
  · have courses (t : T) : ∃ event, (event = none ↔ d.tasks t = .ret none) ∧
        Came config (ops t) (command blake3 config (ops t)) (d.history.own t) event := by
      obtain ⟨reply, returned⟩ := finished t
      obtain ⟨event, came, answered⟩ := came_of_run run returned
      refine ⟨event, ?_, came⟩
      rw [returned]
      cases reply with
      | none =>
        cases came with
        | dropped quiet => exact iff_of_true rfl rfl
        | ended own course => exact answered.elim
      | some reply =>
        cases came with
        | dropped quiet => exact answered.elim
        | ended own course => exact iff_of_false (by simp) (by simp)
    choose events dropped came using courses
    refine ⟨?_, events, dropped, fun t e he => ?_, fun c => ?_⟩
    · have ended (t : T) (n : UInt32) (struck : ⟨.addFailure, n⟩ ∈ d.history.own t) :
          ∃ e done, d.history.own t = rest (ops t) e ++ done ∧
            Ran config (command blake3 config (ops t)) e done := by
        have course := came t
        generalize events t = event at course
        cases course with
        | dropped quiet => exact (quiet _ struck).elim
        | ended own course => exact ⟨_, _, own, course⟩
      exact kept.few ended
    · have course := came t
      rw [he] at course
      cases course with
      | ended own course => exact course.judged kept.told own
    · rw [kept.counters c, History.countP_eq_sum_own (fun e => e.1 = Op.count c), Finset.card_filter]
      refine congrArg (· % 2 ^ 64) (Finset.sum_congr rfl fun t _ => ?_)
      rw [(came t).countP c]
      cases (events t).any fun e => counts (ops t) e c <;> rfl

end

/-- A circuit that one failure opens is not opened by a read that is dropped when its time is up. -/
theorem dropped_timeout_not_counted : ∃ d : Config Bool Op Op.Res RedisCacheBackend (Option Reply),
    d.returned false = some none ∧ d.world.metrics.circuitOpens = 1 ∧
    ∃ e, Judged { circuitFailureThreshold := 1 } d.history true e := by
  obtain ⟨d, run, seen⟩ := play_observed (M := machine Bool) (A := FewFailures)
    (c := dropping Sample.hash { circuitFailureThreshold := 1 } unanswered
      fun kept => if kept then 2 else 1)
    (List.replicate 3 (false, silence) ++ List.replicate 9 (true, silence))
    (fun d => decide (d.returned false = some none ∧ (d.returned true).join.isSome ∧
      d.world.metrics.circuitOpens = 1)) (by decide +kernel)
  obtain ⟨dropped, ended, opened⟩ := of_decide_eq_true seen
  obtain ⟨reply, returned⟩ := Option.isSome_iff_exists.mp ended
  have returned := Config.returned_eq_some.mp (Option.join_eq_some_iff.mp returned)
  obtain ⟨e, judged, -⟩ := (dropped_operations_count_nothing run).2.1 true reply returned
  exact ⟨d, dropped, opened, e, judged⟩

end RbatisCache.Redis.Concurrent
