import RbatisCache.Redis.Model
import RbatisCache.Spi.Sample

/-! The circuit breaker over a whole sequence of operations: two atomics and the metrics against the
list of what happened. -/
namespace RbatisCache.Redis
open RedisCacheBackend

/-- An operation and all that it meets. -/
structure Call where
  op : BackendOp
  env : Environment

/-- What an operation comes to; a failure may open the circuit, until some time. -/
inductive Event where
  | refused
  | succeeded
  | failed (timedOut : Bool) (openUntil : Option UInt64)
  deriving DecidableEq

namespace Event

def isSuccess : Event → Bool
  | .succeeded => true
  | .refused | .failed _ _ => false

def isError : Event → Bool
  | .failed timedOut _ => !timedOut
  | .refused | .succeeded => false

def isTimeout : Event → Bool
  | .failed timedOut _ => timedOut
  | .refused | .succeeded => false

def isOpening : Event → Bool
  | .failed _ openUntil => openUntil.isSome
  | .refused | .succeeded => false

end Event

/-- Whether a failure is one by the timeout. -/
def Outcome.failure {T : Type} : Outcome T → Option Bool
  | .success _ => none
  | .error _ => some false
  | .timeout => some true

namespace Call
variable (blake3 : Bytes → String) (c : Call) (b : RedisCacheBackend)

def apply : RedisCacheBackend := (perform blake3 c.op c.env b).backend

/-- How the command of the operation fails, if it is sent. -/
def failure : Option Bool := (c.env.server (command blake3 b.config c.op)).failure

/-- An operation is refused if it sends no command, and opens the circuit if it counts an opening. -/
def event : Event :=
  if (perform blake3 c.op c.env b).sent = [] then .refused
  else match c.failure blake3 b with
    | none => .succeeded
    | some timedOut => .failed timedOut <|
      if (c.apply blake3 b).metrics.circuitOpens = b.metrics.circuitOpens then none
      else some (saturatingAdd c.env.failedAt (durationMs b.config.circuitCooldown))

end Call

/-- The backend after some operations, the latest of which comes first. -/
def after (blake3 : Bytes → String) (config : RedisCacheConfig) : List Call → RedisCacheBackend
  | [] => connect config
  | c :: earlier => c.apply blake3 (after blake3 config earlier)

def events (blake3 : Bytes → String) (config : RedisCacheConfig) : List Call → List Event
  | [] => []
  | c :: earlier => c.event blake3 (after blake3 config earlier) :: events blake3 config earlier

/-- Until when the circuit was opened last. -/
def lastOpening : List Event → Option UInt64
  | [] => none
  | .failed _ (some openUntil) :: _ => some openUntil
  | _ :: es => lastOpening es

/-- The failures since the last success or opening. -/
def failuresSince : List Event → Nat
  | [] => 0
  | .refused :: es => failuresSince es
  | .succeeded :: _ | .failed _ (some _) :: _ => 0
  | .failed _ none :: es => failuresSince es + 1

/-- The backend is in the state that the events say. -/
structure Consistent (config : RedisCacheConfig) (es : List Event) (b : RedisCacheBackend) : Prop where
  configured : b.config = config
  failures : b.consecutiveFailures.toNat = failuresSince es
  few : failuresSince es < config.threshold.toNat
  openUntil : b.circuitOpenUntilMs = (lastOpening es).getD 0
  operations : b.metrics.operations.toNat = es.countP Event.isSuccess % 2 ^ 64
  errors : b.metrics.errors.toNat = es.countP Event.isError % 2 ^ 64
  timeouts : b.metrics.timeouts.toNat = es.countP Event.isTimeout % 2 ^ 64
  circuitOpens : b.metrics.circuitOpens.toNat = es.countP Event.isOpening % 2 ^ 64

/-- A failure is counted before it is recorded. -/
def counted (b : RedisCacheBackend) (timedOut : Bool) : RedisCacheBackend :=
  { b with metrics :=
    if timedOut then { b.metrics with timeouts := b.metrics.timeouts + 1 }
    else { b.metrics with errors := b.metrics.errors + 1 } }

section
variable {blake3 : Bytes → String} {config : RedisCacheConfig} {b : RedisCacheBackend} {c : Call}
variable {es : List Event} {op : Command} {env : Environment}

theorem toNat_threshold (config : RedisCacheConfig) :
    config.threshold.toNat = max config.circuitFailureThreshold.toNat 1 := by
  unfold RedisCacheConfig.threshold
  have one : (1 : UInt32).toNat = 1 := rfl
  split
  · next h =>
    rw [UInt32.lt_iff_toNat_lt] at h
    omega
  · next h =>
    rw [UInt32.lt_iff_toNat_lt] at h
    omega

/-- A metric counts one event more. -/
theorem toNat_succ {n : UInt64} {p : Event → Bool} {e : Event} (h : n.toNat = es.countP p % 2 ^ 64)
    (holds : p e = true) : (n + 1).toNat = (e :: es).countP p % 2 ^ 64 := by
  rw [UInt64.toNat_add, h, List.countP_cons_of_pos holds]
  exact Nat.mod_add_mod _ (2 ^ 64) 1

/-! ### One operation -/

/-- All that `run` can do. -/
inductive Ran (b : RedisCacheBackend) (op : Command) (env : Environment) : Prop
  | refused (early : env.now < b.circuitOpenUntilMs) (sent : (b.run op env).sent = [])
    (backend : (b.run op env).backend = b)
  | success (late : ¬ env.now < b.circuitOpenUntilMs) (succeeds : (env.server op).failure = none)
    (sent : (b.run op env).sent = [op]) (backend : (b.run op env).backend = { b with
      consecutiveFailures := 0
      metrics := { b.metrics with operations := b.metrics.operations + 1 } })
  | failure (late : ¬ env.now < b.circuitOpenUntilMs) {timedOut : Bool}
    (fails : (env.server op).failure = some timedOut) (sent : (b.run op env).sent = [op])
    (backend : (b.run op env).backend = (counted b timedOut).recordFailure env.failedAt)

private theorem ran (b : RedisCacheBackend) (op : Command) (env : Environment) : Ran b op env := by
  by_cases early : env.now < b.circuitOpenUntilMs
  · refine .refused early ?_ ?_
    · rw [run, if_pos early]
    · rw [run, if_pos early]
  · cases outcome : env.server op with
    | success value =>
      refine .success early (congrArg Outcome.failure outcome) ?_ ?_
      · rw [run, if_neg early, outcome]
      · rw [run, if_neg early, outcome]
    | error message =>
      refine .failure early (congrArg Outcome.failure outcome) ?_ ?_
      · rw [run, if_neg early, outcome]
      · rw [run, if_neg early, outcome]
        rfl
    | timeout =>
      refine .failure early (congrArg Outcome.failure outcome) ?_ ?_
      · rw [run, if_neg early, outcome]
      · rw [run, if_neg early, outcome]
        rfl

/-- Every operation is a `run` of its command, but for the count of the invalidations. -/
theorem perform_run (blake3 : Bytes → String) (op : BackendOp) (env : Environment)
    (b : RedisCacheBackend) :
    (perform blake3 op env b).sent = (b.run (command blake3 b.config op) env).sent ∧
    ∃ n, (perform blake3 op env b).backend = { (b.run (command blake3 b.config op) env).backend with
      metrics := { (b.run (command blake3 b.config op) env).backend.metrics with invalidations := n } } := by
  cases op with
  | get | put | generation => exact ⟨rfl, _, rfl⟩
  | bumpGeneration nameSpace =>
    change (b.bumpGeneration blake3 nameSpace env).sent = _ ∧
      ∃ n, (b.bumpGeneration blake3 nameSpace env).backend = _
    unfold bumpGeneration
    dsimp only
    split
    · exact ⟨rfl, _, rfl⟩
    · exact ⟨rfl, _, rfl⟩

private theorem perform_refused (blake3 : Bytes → String) (early : env.now < b.circuitOpenUntilMs)
    (op : BackendOp) :
    (perform blake3 op env b).sent = [] ∧ (perform blake3 op env b).backend = b := by
  have refused (op : Command) : b.run op env = ⟨.error (.backend "redis circuit is open"), [], b⟩ := by
    rw [run, if_pos early]
  cases op with
  | get | put | generation =>
    change (b.run _ env).sent = [] ∧ (b.run _ env).backend = b
    rw [refused]
    exact ⟨rfl, rfl⟩
  | bumpGeneration nameSpace =>
    change (b.bumpGeneration blake3 nameSpace env).sent = [] ∧
      (b.bumpGeneration blake3 nameSpace env).backend = b
    rw [bumpGeneration, refused]
    exact ⟨rfl, rfl⟩

/-- All that an operation can do to the breaker. -/
inductive Stepped (blake3 : Bytes → String) (c : Call) (b : RedisCacheBackend) : Prop
  | refused (early : c.env.now < b.circuitOpenUntilMs) (event : c.event blake3 b = .refused)
    (backend : c.apply blake3 b = b)
  | succeeded (late : ¬ c.env.now < b.circuitOpenUntilMs) (succeeds : c.failure blake3 b = none)
    (event : c.event blake3 b = .succeeded) {n : UInt64} (backend : c.apply blake3 b = { b with
      consecutiveFailures := 0
      metrics := { b.metrics with operations := b.metrics.operations + 1, invalidations := n } })
  | failed (late : ¬ c.env.now < b.circuitOpenUntilMs) {timedOut : Bool}
    (fails : c.failure blake3 b = some timedOut)
    (below : ¬ b.config.threshold ≤ saturatingSucc b.consecutiveFailures)
    (event : c.event blake3 b = .failed timedOut none) {n : UInt64}
    (backend : c.apply blake3 b = { b with
      consecutiveFailures := b.consecutiveFailures + 1
      metrics := { (counted b timedOut).metrics with invalidations := n } })
  | opened (late : ¬ c.env.now < b.circuitOpenUntilMs) {timedOut : Bool}
    (fails : c.failure blake3 b = some timedOut)
    (reached : b.config.threshold ≤ saturatingSucc b.consecutiveFailures)
    (event : c.event blake3 b = .failed timedOut
      (some (saturatingAdd c.env.failedAt (durationMs b.config.circuitCooldown)))) {n : UInt64}
    (backend : c.apply blake3 b = { b with
      consecutiveFailures := 0
      circuitOpenUntilMs := saturatingAdd c.env.failedAt (durationMs b.config.circuitCooldown)
      metrics := { (counted b timedOut).metrics with
        circuitOpens := b.metrics.circuitOpens + 1, invalidations := n } })

private theorem succ_ne (n : UInt64) : n + 1 ≠ n := by
  intro same
  have values := congrArg UInt64.toNat same
  rw [UInt64.toNat_add] at values
  have one : (1 : UInt64).toNat = 1 := rfl
  have bound := n.toNat_lt
  omega

private theorem counted_circuitOpens (b : RedisCacheBackend) (timedOut : Bool) :
    (counted b timedOut).metrics.circuitOpens = b.metrics.circuitOpens := by
  cases timedOut with
  | true | false => rfl

theorem stepped (blake3 : Bytes → String) (c : Call) (b : RedisCacheBackend) : Stepped blake3 c b := by
  obtain ⟨sends, n, leaves⟩ := perform_run blake3 c.op c.env b
  cases ran b (command blake3 b.config c.op) c.env with
  | refused early =>
    obtain ⟨nothing, same⟩ := perform_refused blake3 early c.op
    exact .refused early (if_pos nothing) same
  | success late succeeds sent backend =>
    rw [backend] at leaves
    refine .succeeded late succeeds ?_ leaves
    have some : (perform blake3 c.op c.env b).sent ≠ [] := by
      rw [sends, sent]
      exact List.cons_ne_nil _ _
    rw [Call.event, if_neg some, Call.failure, succeeds]
  | @failure late timedOut fails sent backend =>
    rw [backend] at leaves
    have some : (perform blake3 c.op c.env b).sent ≠ [] := by
      rw [sends, sent]
      exact List.cons_ne_nil _ _
    have config : (counted b timedOut).config = b.config := rfl
    have failures : (counted b timedOut).consecutiveFailures = b.consecutiveFailures := rfl
    by_cases reached : b.config.threshold ≤ saturatingSucc b.consecutiveFailures
    · rw [recordFailure, config, failures] at leaves
      dsimp only at leaves
      rw [if_pos (by exact reached), counted_circuitOpens] at leaves
      refine .opened late fails reached ?_ leaves
      have counts : (c.apply blake3 b).metrics.circuitOpens ≠ b.metrics.circuitOpens := by
        rw [Call.apply, leaves]
        exact succ_ne _
      rw [Call.event, if_neg some, Call.failure, fails]
      dsimp only
      rw [if_neg counts]
    · rw [recordFailure, config, failures] at leaves
      dsimp only at leaves
      rw [if_neg (by exact reached)] at leaves
      refine .failed late fails reached ?_ leaves
      have counts : (c.apply blake3 b).metrics.circuitOpens = b.metrics.circuitOpens := by
        rw [Call.apply, leaves]
        exact counted_circuitOpens b timedOut
      rw [Call.event, if_neg some, Call.failure, fails]
      dsimp only
      rw [if_pos counts]

/-! ### Over a whole sequence -/

theorem Consistent.toNat_succ_failures (ok : Consistent config es b) :
    (b.consecutiveFailures + 1).toNat = failuresSince es + 1 ∧
    saturatingSucc b.consecutiveFailures = b.consecutiveFailures + 1 := by
  have few := ok.few
  have bound := config.threshold.toNat_lt
  have one : (1 : UInt32).toNat = 1 := rfl
  have small : b.consecutiveFailures.toNat + 1 < 2 ^ 32 := by
    rw [ok.failures]
    omega
  refine ⟨?_, if_pos small⟩
  rw [UInt32.toNat_add, one, Nat.mod_eq_of_lt small, ok.failures]

/-- The circuit opens at the failure that reaches the threshold. -/
theorem Consistent.reached_iff (ok : Consistent config es b) :
    b.config.threshold ≤ saturatingSucc b.consecutiveFailures ↔
      failuresSince es + 1 = max config.circuitFailureThreshold.toNat 1 := by
  obtain ⟨succ, exact⟩ := ok.toNat_succ_failures
  have few := ok.few
  rw [exact, UInt32.le_iff_toNat_le, succ, ok.configured, ← toNat_threshold]
  omega

private theorem consistent_nil : Consistent config [] (connect config) where
  configured := rfl
  failures := rfl
  few := by
    rw [toNat_threshold]
    exact Nat.lt_of_lt_of_le Nat.one_pos (Nat.le_max_right _ _)
  openUntil := rfl
  operations := rfl
  errors := rfl
  timeouts := rfl
  circuitOpens := rfl

private theorem counted_errors (ok : Consistent config es b) (timedOut : Bool)
    (openUntil : Option UInt64) :
    (counted b timedOut).metrics.errors.toNat =
      (Event.failed timedOut openUntil :: es).countP Event.isError % 2 ^ 64 := by
  cases timedOut with
  | true => exact ok.errors
  | false => exact toNat_succ ok.errors rfl

private theorem counted_timeouts (ok : Consistent config es b) (timedOut : Bool)
    (openUntil : Option UInt64) :
    (counted b timedOut).metrics.timeouts.toNat =
      (Event.failed timedOut openUntil :: es).countP Event.isTimeout % 2 ^ 64 := by
  cases timedOut with
  | true => exact toNat_succ ok.timeouts rfl
  | false => exact ok.timeouts

private theorem counted_operations (b : RedisCacheBackend) (timedOut : Bool) :
    (counted b timedOut).metrics.operations = b.metrics.operations := by
  cases timedOut with
  | true | false => rfl

theorem Consistent.step (ok : Consistent config es b) (blake3 : Bytes → String) (c : Call) :
    Consistent config (c.event blake3 b :: es) (c.apply blake3 b) := by
  have positive : 0 < config.threshold.toNat := (Nat.zero_le _).trans_lt ok.few
  cases stepped blake3 c b with
  | refused early event backend =>
    rw [event, backend]
    exact ⟨ok.configured, ok.failures, ok.few, ok.openUntil, ok.operations, ok.errors, ok.timeouts,
      ok.circuitOpens⟩
  | succeeded late succeeds event backend =>
    rw [event, backend]
    exact ⟨ok.configured, rfl, positive, ok.openUntil, toNat_succ ok.operations rfl, ok.errors,
      ok.timeouts, ok.circuitOpens⟩
  | @failed late timedOut fails below event n backend =>
    rw [event, backend]
    have few := ok.few
    rw [ok.reached_iff, ← toNat_threshold] at below
    refine ⟨ok.configured, ok.toNat_succ_failures.1, ?_, ok.openUntil, ?_, counted_errors ok _ _,
      counted_timeouts ok _ _, ?_⟩
    · rw [failuresSince]
      omega
    · exact (congrArg UInt64.toNat (counted_operations b timedOut)).trans ok.operations
    · exact (congrArg UInt64.toNat (counted_circuitOpens b timedOut)).trans ok.circuitOpens
  | @opened late timedOut fails reached event n backend =>
    rw [event, backend]
    refine ⟨ok.configured, rfl, positive, rfl, ?_, counted_errors ok _ _, counted_timeouts ok _ _,
      toNat_succ ok.circuitOpens rfl⟩
    exact (congrArg UInt64.toNat (counted_operations b timedOut)).trans ok.operations

private theorem consistent_after (blake3 : Bytes → String) (config : RedisCacheConfig) (h : List Call) :
    Consistent config (events blake3 config h) (after blake3 config h) := by
  induction h with
  | nil => exact consistent_nil
  | cons c earlier ih => exact ih.step blake3 c

/-- After every sequence of operations, the next one is refused if and only if its clock is before the
end of the last opening, and then it changes nothing. It opens the circuit if and only if it is
attempted, fails, and is the failure since the last success or opening that reaches the threshold; the
count of failures stays below the threshold. The metrics are the numbers of successes, errors,
timeouts and openings, modulo 2^64. -/
theorem circuit_breaker_follows_events (blake3 : Bytes → String) (config : RedisCacheConfig)
    (h : List Call) (c : Call) :
    (c.event blake3 (after blake3 config h) = .refused ↔
      ∃ openUntil ∈ lastOpening (events blake3 config h), c.env.now < openUntil) ∧
    (c.event blake3 (after blake3 config h) = .refused →
      c.apply blake3 (after blake3 config h) = after blake3 config h) ∧
    ((c.event blake3 (after blake3 config h)).isOpening = true ↔
      c.event blake3 (after blake3 config h) ≠ .refused ∧
      c.failure blake3 (after blake3 config h) ≠ none ∧
      failuresSince (events blake3 config h) + 1 = max config.circuitFailureThreshold.toNat 1) ∧
    (after blake3 config h).consecutiveFailures.toNat < max config.circuitFailureThreshold.toNat 1 ∧
    (after blake3 config h).metrics.operations.toNat =
      (events blake3 config h).countP Event.isSuccess % 2 ^ 64 ∧
    (after blake3 config h).metrics.errors.toNat =
      (events blake3 config h).countP Event.isError % 2 ^ 64 ∧
    (after blake3 config h).metrics.timeouts.toNat =
      (events blake3 config h).countP Event.isTimeout % 2 ^ 64 ∧
    (after blake3 config h).metrics.circuitOpens.toNat =
      (events blake3 config h).countP Event.isOpening % 2 ^ 64 := by
  have ok := consistent_after blake3 config h
  have early_iff : c.env.now < (after blake3 config h).circuitOpenUntilMs ↔
      ∃ openUntil ∈ lastOpening (events blake3 config h), c.env.now < openUntil := by
    rw [ok.openUntil]
    cases lastOpening (events blake3 config h) with
    | none => simp
    | some openUntil => simp
  refine ⟨?_, ?_, ?_, ?_, ok.operations, ok.errors, ok.timeouts, ok.circuitOpens⟩
  · rw [← early_iff]
    cases stepped blake3 c (after blake3 config h) with
    | refused early event => exact ⟨fun _ => early, fun _ => event⟩
    | succeeded late _ event | failed late _ _ event | opened late _ _ event =>
      rw [event]
      constructor
      · intro same
        cases same
      · exact fun early => absurd early late
  · intro refused
    cases stepped blake3 c (after blake3 config h) with
    | refused _ _ backend => exact backend
    | succeeded _ _ event | failed _ _ _ event | opened _ _ _ event =>
      rw [event] at refused
      cases refused
  · rw [← ok.reached_iff]
    cases stepped blake3 c (after blake3 config h) with
    | refused _ event => simp [event, Event.isOpening]
    | succeeded _ succeeds event => simp [event, succeeds, Event.isOpening]
    | failed _ _ below event => simp [event, below, Event.isOpening]
    | opened _ fails reached event => simp [event, fails, reached, Event.isOpening]
  · rw [ok.failures, ← toNat_threshold]
    exact ok.few

end
/-- A server that answers every command. -/
def Sample.answers : (command : Command) → Outcome command.Reply
  | .get _ => .success none
  | .psetex _ _ _ => .success ()
  | .getNumber _ => .success none
  | .incr _ => .success 1

def Sample.success : Call := ⟨.generation "users", ⟨5, 5, Sample.answers⟩⟩

private theorem events_replicate (n : Nat) :
    events Sample.hash {} (List.replicate n Sample.success) = List.replicate n .succeeded := by
  induction n with
  | zero => rfl
  | succ n ih =>
    have never : lastOpening (List.replicate n .succeeded) = none := by
      clear ih
      induction n with
      | zero => rfl
      | succ n ih => exact ih
    have closed : (after Sample.hash {} (List.replicate n Sample.success)).circuitOpenUntilMs = 0 := by
      rw [(consistent_after _ _ _).openUntil, ih, never, Option.getD_none]
    rw [List.replicate_succ, List.replicate_succ, events, ih]
    cases stepped Sample.hash Sample.success (after Sample.hash {} (List.replicate n Sample.success)) with
    | refused early =>
      rw [closed] at early
      exact absurd early UInt64.not_lt_zero
    | succeeded _ _ event => rw [event]
    | failed _ fails | opened _ fails => cases fails

/-- The metrics are counters of 64 bits. -/
theorem operations_wrap_around :
    (events Sample.hash {} (List.replicate (2 ^ 64) Sample.success)).countP Event.isSuccess = 2 ^ 64 ∧
    (after Sample.hash {} (List.replicate (2 ^ 64) Sample.success)).metrics.operations.toNat = 0 := by
  have successes (n : Nat) : (List.replicate n Event.succeeded).countP Event.isSuccess = n := by
    rw [List.countP_replicate]
    exact if_pos rfl
  have counted := (consistent_after Sample.hash {} (List.replicate (2 ^ 64) Sample.success)).operations
  rw [events_replicate, successes] at counted ⊢
  exact ⟨rfl, counted.trans (Nat.mod_self _)⟩

end RbatisCache.Redis
