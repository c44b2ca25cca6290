import RbatisCache.Interleaving.Counting
import RbatisCache.Interleaving.Progress
import RbatisCache.Interleaving.Protocol
import RbatisCache.Redis.CircuitBreaker

/-! Operations of one client that overlap. The breaker is two atomics, so what an operation does to one
of them may come between the accesses of another operation. -/
namespace RbatisCache.Redis.Concurrent
open Interleaving RedisCacheBackend
open Interleaving.Prog (perform)

/-- The fields of `RedisMetrics`. -/
inductive Counter where
  | operations | errors | timeouts | circuitOpens | invalidations
  deriving DecidableEq

def RedisMetrics.counter (metrics : RedisMetrics) : Counter → UInt64
  | .operations => metrics.operations
  | .errors => metrics.errors
  | .timeouts => metrics.timeouts
  | .circuitOpens => metrics.circuitOpens
  | .invalidations => metrics.invalidations

def RedisMetrics.add (metrics : RedisMetrics) : Counter → RedisMetrics
  | .operations => { metrics with operations := metrics.operations + 1 }
  | .errors => { metrics with errors := metrics.errors + 1 }
  | .timeouts => { metrics with timeouts := metrics.timeouts + 1 }
  | .circuitOpens => { metrics with circuitOpens := metrics.circuitOpens + 1 }
  | .invalidations => { metrics with invalidations := metrics.invalidations + 1 }

inductive Op where
  /-- The load of `circuit_open_until_ms`. -/
  | openUntil
  | nowMs
  /-- The command, and what the client has of it within the operation timeout. -/
  | send (command : Command)
  | count (counter : Counter)
  /-- `consecutive_failures.store(0)`. -/
  | resetFailures
  /-- `consecutive_failures.fetch_add(1)`. -/
  | addFailure
  /-- The store to `circuit_open_until_ms`. -/
  | openCircuit (untilMs : UInt64)
  deriving DecidableEq

@[reducible] def Op.Res : Op → Type
  | .openUntil | .nowMs => UInt64
  | .send command => Outcome command.Reply
  | .addFailure => UInt32
  | .count _ | .resetFailures | .openCircuit _ => Unit

abbrev Code (α : Type) := Prog Op Op.Res α

section
variable (blake3 : Bytes → String) (config : RedisCacheConfig)

def recordFailure : Code Unit := do
  let old ← perform Op.addFailure
  if config.threshold ≤ saturatingSucc old then
    let now ← perform Op.nowMs
    perform (Op.openCircuit (saturatingAdd now (durationMs config.circuitCooldown)))
    perform (Op.count .circuitOpens)
    perform Op.resetFailures
  else return ()

/-- What `run` does once the command is done or given up. -/
def settle {R : Type} : Outcome R → Code (Except CacheError R)
  | .success value => do
    perform Op.resetFailures
    perform (Op.count .operations)
    return .ok value
  | .error message => do
    perform (Op.count .errors)
    recordFailure config
    return .error (.backend message)
  | .timeout => do
    perform (Op.count .timeouts)
    recordFailure config
    return .error (.backend "redis operation timed out")

def run (op : Command) : Code (Except CacheError op.Reply) := do
  let openUntil ← perform Op.openUntil
  let now ← perform Op.nowMs
  if now < openUntil then return .error (.backend "redis circuit is open")
  else
    let outcome ← perform (Op.send op)
    settle config outcome

def get (key : String) : Code (Except CacheError (Option Bytes)) :=
  run config (.get (entryKey config key))

def put (key : String) (value : Bytes) (ttl : Duration) : Code (Except CacheError Unit) :=
  let millis := if durationMs ttl < 1 then 1 else durationMs ttl
  run config (.psetex (entryKey config key) millis value)

def generation (nameSpace : String) : Code (Except CacheError UInt64) := do
  match ← run config (.getNumber (generationKey blake3 config nameSpace)) with
  | .error e => return .error e
  | .ok gen => return .ok (gen.getD 0)

def bumpGeneration (nameSpace : String) : Code (Except CacheError UInt64) := do
  match ← run config (.incr (generationKey blake3 config nameSpace)) with
  | .error e => return .error e
  | .ok gen =>
    perform (Op.count .invalidations)
    return .ok gen

abbrev Reply := Sigma BackendOp.Res

def program : BackendOp → Code Reply
  | .get key => do return ⟨.get key, ← get config key⟩
  | .put key value ttl => do return ⟨.put key value ttl, ← put config key value ttl⟩
  | .generation nameSpace => do return ⟨.generation nameSpace, ← generation blake3 config nameSpace⟩
  | .bumpGeneration nameSpace => do
    return ⟨.bumpGeneration nameSpace, ← bumpGeneration blake3 config nameSpace⟩

end

/-- The clock, if it is read, and the server. -/
structure Choice where
  now : UInt64
  server : (command : Command) → Outcome command.Reply

def access : (op : Op) → Choice → RedisCacheBackend → op.Res × RedisCacheBackend
  | .openUntil, _, b => (b.circuitOpenUntilMs, b)
  | .nowMs, ch, b => (ch.now, b)
  | .send command, ch, b => (ch.server command, b)
  | .count counter, _, b => ((), { b with metrics := RedisMetrics.add b.metrics counter })
  | .resetFailures, _, b => ((), { b with consecutiveFailures := 0 })
  | .addFailure, _, b =>
    (b.consecutiveFailures, { b with consecutiveFailures := b.consecutiveFailures + 1 })
  | .openCircuit untilMs, _, b => ((), { b with circuitOpenUntilMs := untilMs })

def machine (T : Type) : Machine T Op Op.Res Choice RedisCacheBackend where
  perform _ op ch b := some (access op ch b)

/-- Operations that begin once the connection stands. -/
def initial {T : Type} (blake3 : Bytes → String) (config : RedisCacheConfig) (ops : T → BackendOp) :
    Config T Op Op.Res RedisCacheBackend Reply :=
  ⟨connect config, [], fun t => program blake3 config (ops t)⟩

/-! ### An operation without others -/

/-- An operation that is alone reads the clock when it starts and when it fails. -/
def alone (env : Environment) : (op : Op) → RedisCacheBackend × Bool →
    op.Res × (RedisCacheBackend × Bool)
  | .nowMs, (b, started) => (if started then env.failedAt else env.now, b, true)
  | op, (b, started) =>
    let out := access op ⟨env.now, env.server⟩ b
    (out.1, out.2, started)

section
variable {blake3 : Bytes → String} {b : RedisCacheBackend} {env : Environment}

private theorem recordFailure_alone : ((recordFailure b.config).run (alone env) (b, true)).2.1 =
    b.recordFailure env.failedAt := by
  unfold RedisCacheBackend.recordFailure
  change (Prog.run (alone env) (if b.config.threshold ≤ saturatingSucc b.consecutiveFailures then _
    else _) _).2.1 = _
  by_cases reached : b.config.threshold ≤ saturatingSucc b.consecutiveFailures
  · rw [if_pos reached]
    exact (if_pos reached).symm
  · rw [if_neg reached]
    exact (if_neg reached).symm

private theorem settle_alone {R : Type} (error : CacheError) (counter : Counter) :
    let p : Code (Except CacheError R) := do
      perform (Op.count counter)
      recordFailure b.config
      return .error error
    (p.run (alone env) (b, true)).1 = .error error ∧ (p.run (alone env) (b, true)).2.1 =
      RedisCacheBackend.recordFailure { b with metrics := RedisMetrics.add b.metrics counter }
        env.failedAt := by
  simp only [Prog.bind_eq, Prog.perform_bind, Prog.run, Prog.run_bind, Prog.pure_eq]
  exact ⟨trivial, recordFailure_alone⟩

private theorem run_alone (b : RedisCacheBackend) (env : Environment) (op : Command) :
    ((run b.config op).run (alone env) (b, false)).1 = (b.run op env).result ∧
    ((run b.config op).run (alone env) (b, false)).2.1 = (b.run op env).backend := by
  have starts : (run b.config op).run (alone env) (b, false) =
      (if env.now < b.circuitOpenUntilMs then
        (Prog.ret (.error (.backend "redis circuit is open")) : Code (Except CacheError op.Reply))
      else .call (.send op) (settle b.config)).run (alone env) (b, true) := rfl
  rw [starts, RedisCacheBackend.run]
  by_cases early : env.now < b.circuitOpenUntilMs
  · rw [if_pos early, if_pos early]
    exact ⟨rfl, rfl⟩
  · rw [if_neg early, if_neg early, Prog.run]
    change (Prog.run (alone env) (settle b.config (env.server op)) (b, true)).1 = _ ∧
      (Prog.run (alone env) (settle b.config (env.server op)) (b, true)).2.1 = _
    cases env.server op with
    | success value => exact ⟨rfl, rfl⟩
    | error message => exact settle_alone (.backend message) .errors
    | timeout => exact settle_alone (.backend "redis operation timed out") .timeouts

/-- An operation that is alone does to the backend what the sequential model says. -/
theorem program_alone (op : BackendOp) :
    ((program blake3 b.config op).run (alone env) (b, false)).1 =
      ⟨op, (RedisCacheBackend.perform blake3 op env b).result⟩ ∧
    ((program blake3 b.config op).run (alone env) (b, false)).2.1 =
      (RedisCacheBackend.perform blake3 op env b).backend := by
  obtain ⟨result, backend⟩ := run_alone b env (command blake3 b.config op)
  cases op with
  | get key =>
    simp only [program, Prog.bind_eq, Prog.run_bind]
    exact ⟨congrArg (Sigma.mk (BackendOp.get key)) result, backend⟩
  | put key value ttl =>
    simp only [program, Prog.bind_eq, Prog.run_bind]
    exact ⟨congrArg (Sigma.mk (BackendOp.put key value ttl)) result, backend⟩
  | generation nameSpace =>
    simp only [command] at result backend
    simp only [program, generation, Prog.bind_eq, Prog.run_bind, result, RedisCacheBackend.perform,
      RedisCacheBackend.generation]
    cases (b.run (.getNumber (generationKey blake3 b.config nameSpace)) env).result with
    | error e => exact ⟨rfl, backend⟩
    | ok gen => exact ⟨rfl, backend⟩
  | bumpGeneration nameSpace =>
    simp only [command] at result backend
    simp only [program, bumpGeneration, Prog.bind_eq, Prog.run_bind, result,
      RedisCacheBackend.perform, RedisCacheBackend.bumpGeneration]
    cases (b.run (.incr (generationKey blake3 b.config nameSpace)) env).result with
    | error e => exact ⟨rfl, backend⟩
    | ok gen =>
      refine ⟨rfl, ?_⟩
      rw [← backend]
      rfl

end

/-! ### What the atomics hold -/

section
variable {T : Type}

/-- The failures that have been counted since the counter was reset. -/
def strikes : History T Op Op.Res → Nat
  | [] => 0
  | e :: h => match e.op with
    | .resetFailures => 0
    | .addFailure => strikes h + 1
    | _ => strikes h

/-- Until when the circuit was opened last. -/
def openedUntil : History T Op Op.Res → UInt64
  | [] => 0
  | e :: h => match e.op with
    | .openCircuit untilMs => untilMs
    | _ => openedUntil h

/-- The counter of failures does not wrap around. -/
def FewFailures : Restriction T Op Op.Res Choice RedisCacheBackend :=
  fun _ op _ _ h => op = .addFailure → strikes h + 1 < 2 ^ 32

instance (t : T) (op : Op) (ch : Choice) (b : RedisCacheBackend) (h : History T Op Op.Res) :
    Decidable (FewFailures t op ch b h) :=
  inferInstanceAs (Decidable (op = .addFailure → strikes h + 1 < 2 ^ 32))

/-- An access to an atomic is told what has been stored there. -/
def Told : Interleaving.Event T Op Op.Res → History T Op Op.Res → Prop
  | ⟨_, .openUntil, u⟩, s => u = openedUntil s
  | ⟨_, .addFailure, n⟩, s => n.toNat = strikes s ∧ strikes s + 1 < 2 ^ 32
  | _, _ => True

structure Kept (b : RedisCacheBackend) (h : History T Op Op.Res) : Prop where
  failures : b.consecutiveFailures.toNat = strikes h
  openUntil : b.circuitOpenUntilMs = openedUntil h
  counters : ∀ c, (RedisMetrics.counter b.metrics c).toNat =
    h.countP (fun e => e.op = .count c) % 2 ^ 64
  told : h.Always Told

private theorem counter_add (metrics : RedisMetrics) (c c' : Counter) :
    RedisMetrics.counter (RedisMetrics.add metrics c) c' =
      RedisMetrics.counter metrics c' + if c = c' then 1 else 0 := by
  cases c <;> cases c' <;> simp [RedisMetrics.counter, RedisMetrics.add]

variable {config : RedisCacheConfig} {b : RedisCacheBackend} {h : History T Op Op.Res} {t : T}

theorem Kept.counters_cons (kept : Kept b h) {op : Op} {r : op.Res} (other : ∀ c, op ≠ .count c)
    (c : Counter) : (RedisMetrics.counter b.metrics c).toNat =
      List.countP (fun e => e.op = .count c) (⟨t, op, r⟩ :: h) % 2 ^ 64 := by
  rw [List.countP_cons_of_neg (by simpa using other c)]
  exact kept.counters c

private theorem kept_preserved [DecidableEq T] :
    Preserves (machine T) FewFailures (fun _ _ _ => True) Kept := by
  intro t op ch b h r u kept _ few performed
  obtain ⟨rfl, rfl⟩ := Prod.mk.inj (Option.some.inj performed)
  cases op with
  | openUntil =>
    exact ⟨kept.failures, kept.openUntil, kept.counters_cons nofun, kept.told.cons kept.openUntil⟩
  | nowMs =>
    exact ⟨kept.failures, kept.openUntil, kept.counters_cons nofun, kept.told.cons trivial⟩
  | send command =>
    exact ⟨kept.failures, kept.openUntil, kept.counters_cons nofun, kept.told.cons trivial⟩
  | count c =>
    refine ⟨kept.failures, kept.openUntil, fun c' => ?_, kept.told.cons trivial⟩
    change (RedisMetrics.counter (RedisMetrics.add b.metrics c) c').toNat = _
    rw [counter_add, List.countP_cons, UInt64.toNat_add, kept.counters c']
    by_cases same : c = c'
    · subst same
      simp
    · simp [same]
  | resetFailures =>
    exact ⟨rfl, kept.openUntil, kept.counters_cons nofun, kept.told.cons trivial⟩
  | addFailure =>
    have room : strikes h + 1 < 2 ^ 32 := few rfl
    refine ⟨?_, kept.openUntil, kept.counters_cons nofun, kept.told.cons ⟨kept.failures, room⟩⟩
    change (b.consecutiveFailures + 1).toNat = strikes h + 1
    rw [UInt32.toNat_add, kept.failures]
    exact Nat.mod_eq_of_lt room
  | openCircuit untilMs =>
    exact ⟨kept.failures, rfl, kept.counters_cons nofun, kept.told.cons trivial⟩

end

/-! ### The course of an operation -/

abbrev Done := List (Sigma Op.Res)

/-- An operation loads the end of the last opening before it reads the clock. -/
abbrev begun (openUntil now : UInt64) : Done := [⟨.nowMs, now⟩, ⟨.openUntil, openUntil⟩]

def failureCounter (timedOut : Bool) : Counter := if timedOut then .timeouts else .errors

/-- All that `run` can do to the atomics, newest first. -/
inductive Ran (config : RedisCacheConfig) (command : Command) : Redis.Event → Done → Prop
  | refused {u now : UInt64} (early : now < u) : Ran config command .refused (begun u now)
  | succeeded {u now : UInt64} {value : command.Reply} (late : ¬ now < u) :
      Ran config command .succeeded (⟨.count .operations, ()⟩ :: ⟨.resetFailures, ()⟩ ::
        ⟨.send command, .success value⟩ :: begun u now)
  | failed {u now : UInt64} {outcome : Outcome command.Reply} {timedOut : Bool} {n : UInt32}
      (late : ¬ now < u) (fails : outcome.failure = some timedOut)
      (below : ¬ config.threshold ≤ saturatingSucc n) :
      Ran config command (.failed timedOut none) (⟨.addFailure, n⟩ ::
        ⟨.count (failureCounter timedOut), ()⟩ :: ⟨.send command, outcome⟩ :: begun u now)
  | opened {u now failedAt : UInt64} {outcome : Outcome command.Reply} {timedOut : Bool} {n : UInt32}
      (late : ¬ now < u) (fails : outcome.failure = some timedOut)
      (reached : config.threshold ≤ saturatingSucc n) :
      Ran config command
        (.failed timedOut (some (saturatingAdd failedAt (durationMs config.circuitCooldown))))
        (⟨.resetFailures, ()⟩ :: ⟨.count .circuitOpens, ()⟩ ::
          ⟨.openCircuit (saturatingAdd failedAt (durationMs config.circuitCooldown)), ()⟩ ::
          ⟨.nowMs, failedAt⟩ :: ⟨.addFailure, n⟩ :: ⟨.count (failureCounter timedOut), ()⟩ ::
          ⟨.send command, outcome⟩ :: begun u now)

/-- What an operation still does when its command has succeeded. -/
def rest (op : BackendOp) : Redis.Event → Done
  | .succeeded => match op with
    | .bumpGeneration _ => [⟨.count .invalidations, ()⟩]
    | .get _ | .put _ _ _ | .generation _ => []
  | .refused | .failed _ _ => []

private theorem append_of_quiet {op : BackendOp} {e : Redis.Event} (done : Done)
    (other : ∀ n, op = .bumpGeneration n → e ≠ .succeeded) : done = rest op e ++ done := by
  cases e with
  | succeeded =>
    cases op with
    | get | put | generation => rfl
    | bumpGeneration n => exact absurd rfl (other n rfl)
  | refused | failed => rfl

section
variable {blake3 : Bytes → String} {config : RedisCacheConfig}

private theorem ensures_settle_failure (config : RedisCacheConfig) {R : Type} {command : Command}
    {u now : UInt64}
    {outcome : Outcome command.Reply} {timedOut : Bool} (late : ¬ now < u)
    (fails : outcome.failure = some timedOut) (error : CacheError) :
    (do
      perform (Op.count (failureCounter timedOut))
      recordFailure config
      return .error error : Code (Except CacheError R)).Ensures
      (fun result done => result = .error error ∧ ∃ openUntil,
        Ran config command (.failed timedOut openUntil) done)
      (⟨.send command, outcome⟩ :: begun u now) := by
  unfold recordFailure
  simp only [Prog.bind_eq, Prog.perform_bind, Prog.call_bind]
  refine ⟨trivial, fun _ => ⟨trivial, fun n => ?_⟩⟩
  dsimp only
  by_cases reached : config.threshold ≤ saturatingSucc n
  · rw [if_pos reached]
    exact ⟨trivial, fun failedAt => ⟨trivial, fun _ => ⟨trivial, fun _ => ⟨trivial, fun _ =>
      ⟨rfl, _, .opened late fails reached⟩⟩⟩⟩⟩
  · rw [if_neg reached]
    exact ⟨rfl, _, .failed late fails reached⟩

private theorem ensures_run (command : Command) : (run config command).Ensures (fun result done =>
    ∃ e, Ran config command e done ∧ (e = .succeeded ↔ ∃ value, result = .ok value)) [] := by
  unfold run
  simp only [Prog.bind_eq, Prog.perform_bind]
  refine ⟨trivial, fun u => ⟨trivial, fun now => ?_⟩⟩
  dsimp only
  by_cases early : now < u
  · rw [if_pos early]
    exact ⟨.refused, .refused early, nofun, nofun⟩
  · rw [if_neg early]
    refine ⟨trivial, fun outcome => ?_⟩
    have failed {timedOut : Bool} (fails : outcome.failure = some timedOut) (error : CacheError) :=
      (ensures_settle_failure config (R := command.Reply) early fails error).mono
        (R := fun result done => ∃ e, Ran config command e done ∧
          (e = .succeeded ↔ ∃ value, result = .ok value)) <| by
        rintro _ done ⟨rfl, openUntil, ran⟩
        exact ⟨_, ran, nofun, nofun⟩
    cases outcome with
    | success value =>
      refine ⟨trivial, fun _ => ⟨trivial, fun _ => ⟨.succeeded, .succeeded early, ?_⟩⟩⟩
      exact iff_of_true rfl ⟨value, rfl⟩
    | error message => exact failed rfl (.backend message)
    | timeout => exact failed rfl (.backend "redis operation timed out")

private theorem ok_iff {R : Type} {r : Except CacheError R} :
    (∃ value, r = .ok value) ↔ ¬ ∃ e, r = .error e := by
  cases r with
  | error e => exact iff_of_false nofun fun none => none ⟨e, rfl⟩
  | ok value => exact iff_of_true ⟨value, rfl⟩ nofun

theorem ensures_program (op : BackendOp) : (program blake3 config op).Ensures (fun reply done =>
    ∃ e ran, done = rest op e ++ ran ∧ Ran config (command blake3 config op) e ran ∧
      (e = .succeeded ↔ ¬ reply.1.Failed reply.2)) [] := by
  cases op with
  | get key =>
    refine ((ensures_run _).mono fun result done ⟨e, ran, ok⟩ => ?_).bind
    exact ⟨e, done, append_of_quiet done nofun, ran, ok.trans ok_iff⟩
  | put key value ttl =>
    refine ((ensures_run _).mono fun result done ⟨e, ran, ok⟩ => ?_).bind
    exact ⟨e, done, append_of_quiet done nofun, ran, ok.trans ok_iff⟩
  | generation nameSpace =>
    refine Prog.Obeys.bind (Prog.Obeys.bind ((ensures_run _).mono ?_))
    rintro result done ⟨e, ran, ok⟩
    have quiet : done = rest (.generation nameSpace) e ++ done := append_of_quiet done nofun
    cases result with
    | error error =>
      exact ⟨e, done, quiet, ran, ok.trans (iff_of_false nofun fun none => none ⟨error, rfl⟩)⟩
    | ok gen => exact ⟨e, done, quiet, ran, ok.trans (iff_of_true ⟨gen, rfl⟩ nofun)⟩
  | bumpGeneration nameSpace =>
    refine Prog.Obeys.bind (Prog.Obeys.bind ((ensures_run _).mono ?_))
    rintro result done ⟨e, ran, ok⟩
    cases result with
    | error error =>
      have unsuccessful : e ≠ .succeeded := by
        intro same
        obtain ⟨value, impossible⟩ := ok.mp same
        cases impossible
      refine ⟨e, done, append_of_quiet done fun _ _ => unsuccessful, ran, ?_⟩
      exact iff_of_false unsuccessful fun none => none ⟨error, rfl⟩
    | ok gen =>
      obtain rfl : e = .succeeded := ok.mpr ⟨gen, rfl⟩
      exact ⟨trivial, fun _ => ⟨.succeeded, done, rfl, ran, iff_of_true rfl nofun⟩⟩


/-- Whether an operation that comes to `e` adds to a counter. -/
def counts (op : BackendOp) (e : Redis.Event) : Counter → Bool
  | .operations => e.isSuccess
  | .errors => e.isError
  | .timeouts => e.isTimeout
  | .circuitOpens => e.isOpening
  | .invalidations => rest op e ≠ []

theorem Ran.countP {op : BackendOp} {command : Command} {e : Redis.Event} {done : Done}
    (ran : Ran config command e done) (c : Counter) :
    (rest op e ++ done).countP (fun s => s.1 = .count c) = (counts op e c).toNat := by
  cases ran with
  | refused =>
    cases c <;>
      simp [rest, counts, Event.isSuccess, Event.isError, Event.isTimeout, Event.isOpening]
  | succeeded =>
    cases op <;> cases c <;>
      simp [rest, counts, Event.isSuccess, Event.isError, Event.isTimeout, Event.isOpening]
  | @failed u now outcome timedOut =>
    cases timedOut <;> cases c <;>
      simp [rest, counts, failureCounter, Event.isSuccess, Event.isError, Event.isTimeout,
        Event.isOpening]
  | @opened u now failedAt outcome timedOut =>
    cases timedOut <;> cases c <;>
      simp [rest, counts, failureCounter, Event.isSuccess, Event.isError, Event.isTimeout,
        Event.isOpening]

end

/-! ### Operations among others -/

section
variable {T : Type} [DecidableEq T]

/-- What an operation has come to, by what all operations have done to the atomics. -/
inductive Judged (config : RedisCacheConfig) (h : History T Op Op.Res) (t : T) : Redis.Event → Prop
  | refused {moment : History T Op Op.Res} {now : UInt64}
      (loaded : ⟨t, .openUntil, openedUntil moment⟩ :: moment <:+ h)
      (early : now < openedUntil moment) (own : h.own t = begun (openedUntil moment) now) :
      Judged config h t .refused
  | succeeded {moment : History T Op Op.Res} {now : UInt64} {command : Command}
      {value : command.Reply} (loaded : ⟨t, .openUntil, openedUntil moment⟩ :: moment <:+ h)
      (late : ¬ now < openedUntil moment)
      (own : ⟨.resetFailures, ()⟩ :: ⟨.send command, .success value⟩ ::
        begun (openedUntil moment) now <:+ h.own t) :
      Judged config h t .succeeded
  | failed {moment counted : History T Op Op.Res} {now : UInt64} {command : Command}
      {outcome : Outcome command.Reply} {timedOut : Bool} {n : UInt32}
      (loaded : ⟨t, .openUntil, openedUntil moment⟩ :: moment <:+ h)
      (late : ¬ now < openedUntil moment)
      (sent : ⟨.send command, outcome⟩ :: begun (openedUntil moment) now <:+ h.own t)
      (fails : outcome.failure = some timedOut) (strike : ⟨t, .addFailure, n⟩ :: counted <:+ h)
      (below : strikes counted + 1 < config.threshold.toNat)
      (closed : ∀ untilMs, ⟨t, .openCircuit untilMs, ()⟩ ∉ h) :
      Judged config h t (.failed timedOut none)
  | opened {moment counted : History T Op Op.Res} {now failedAt : UInt64} {command : Command}
      {outcome : Outcome command.Reply} {timedOut : Bool} {n : UInt32}
      (loaded : ⟨t, .openUntil, openedUntil moment⟩ :: moment <:+ h)
      (late : ¬ now < openedUntil moment)
      (sent : ⟨.send command, outcome⟩ :: begun (openedUntil moment) now <:+ h.own t)
      (fails : outcome.failure = some timedOut) (strike : ⟨t, .addFailure, n⟩ :: counted <:+ h)
      (reached : config.threshold.toNat ≤ strikes counted + 1)
      (opens : [⟨.openCircuit (saturatingAdd failedAt (durationMs config.circuitCooldown)), ()⟩,
        ⟨.nowMs, failedAt⟩, ⟨.addFailure, n⟩] <:+: h.own t) :
      Judged config h t
        (.failed timedOut (some (saturatingAdd failedAt (durationMs config.circuitCooldown))))

variable {config : RedisCacheConfig} {h : History T Op Op.Res} {t : T} {op : BackendOp}
variable {command : Command} {e : Redis.Event} {done after before : Done}

/-- The load at which an operation starts. -/
theorem loaded_of_own (told : h.Always Told) {u now : UInt64} (begins : begun u now <:+ h.own t) :
    ∃ moment, u = openedUntil moment ∧ ⟨t, .openUntil, u⟩ :: moment <:+ h := by
  obtain ⟨after, own⟩ := begins
  have split : h.own t = (after ++ [⟨.nowMs, now⟩]) ++ ⟨.openUntil, u⟩ :: [] := by
    rw [← own, List.append_assoc]
    rfl
  obtain ⟨moment, loaded, -⟩ := History.exists_suffix_of_own split
  exact ⟨moment, told _ _ loaded, loaded⟩

omit [DecidableEq T] in
private theorem threshold_le_iff (config : RedisCacheConfig) {n : UInt32}
    {counted : History T Op Op.Res}
    (told : Told ⟨t, .addFailure, n⟩ counted) :
    config.threshold ≤ saturatingSucc n ↔ config.threshold.toNat ≤ strikes counted + 1 := by
  obtain ⟨number, room⟩ : n.toNat = strikes counted ∧ strikes counted + 1 < 2 ^ 32 := told
  have succ : saturatingSucc n = n + 1 := if_pos (by omega)
  have exact : (n + 1).toNat = strikes counted + 1 := by
    rw [UInt32.toNat_add, number]
    exact Nat.mod_eq_of_lt room
  rw [succ, UInt32.le_iff_toNat_le, exact]

/-- The moment at which a failure is counted. -/
theorem strike_of_own (config : RedisCacheConfig) (told : h.Always Told) {n : UInt32}
    (counts : ⟨.addFailure, n⟩ :: before <:+ h.own t) :
    ∃ counted, ⟨t, .addFailure, n⟩ :: counted <:+ h ∧
      (config.threshold ≤ saturatingSucc n ↔ config.threshold.toNat ≤ strikes counted + 1) := by
  obtain ⟨after, own⟩ := counts
  obtain ⟨counted, strike, -⟩ := History.exists_suffix_of_own own.symm
  exact ⟨counted, strike, threshold_le_iff config (told _ _ strike)⟩

theorem Ran.judged (ran : Ran config command e done) (told : h.Always Told)
    (own : h.own t = rest op e ++ done) : Judged config h t e := by
  have within : done <:+ h.own t := own ▸ List.suffix_append _ _
  cases ran with
  | refused early =>
    obtain ⟨moment, rfl, loaded⟩ := loaded_of_own told within
    exact .refused loaded early own
  | succeeded late =>
    have settled := (List.suffix_cons _ _).trans within
    obtain ⟨moment, rfl, loaded⟩ :=
      loaded_of_own told (((List.suffix_cons _ _).trans (List.suffix_cons _ _)).trans settled)
    exact .succeeded loaded late settled
  | failed late fails below =>
    have sent := ((List.suffix_cons _ _).trans (List.suffix_cons _ _)).trans within
    obtain ⟨moment, rfl, loaded⟩ := loaded_of_own told ((List.suffix_cons _ _).trans sent)
    obtain ⟨counted, strike, reached⟩ := strike_of_own config told within
    refine .failed loaded late sent fails strike (Nat.lt_of_not_le (reached.not.mp below)) ?_
    intro untilMs opens
    have opens := History.mem_own.mpr opens
    rw [own] at opens
    simp [rest] at opens
  | @opened u now failedAt outcome timedOut n late fails reached =>
    have strikes : ⟨.addFailure, n⟩ :: ⟨.count (failureCounter timedOut), ()⟩ ::
        ⟨.send command, outcome⟩ :: begun u now <:+ h.own t :=
      (List.suffix_append [_, _, _, _] _).trans within
    have sent := ((List.suffix_cons _ _).trans (List.suffix_cons _ _)).trans strikes
    obtain ⟨moment, rfl, loaded⟩ := loaded_of_own told ((List.suffix_cons _ _).trans sent)
    obtain ⟨counted, strike, iff⟩ := strike_of_own config told strikes
    refine .opened loaded late sent fails strike (iff.mp reached) ?_
    rw [own]
    exact ⟨[_, _], _, rfl⟩


omit [DecidableEq T] in
/-- The last failure that is still counted. -/
theorem exists_strike (positive : 0 < strikes h) : ∃ t n later s,
    h = later ++ ⟨t, .addFailure, n⟩ :: s ∧ (∀ e ∈ later, e.op ≠ .resetFailures) ∧
    strikes s + 1 = strikes h := by
  induction h with
  | nil => exact absurd positive (Nat.lt_irrefl 0)
  | cons e h ih =>
    obtain ⟨t, op, r⟩ := e
    have earlier (same : strikes (⟨t, op, r⟩ :: h) = strikes h) (other : op ≠ .resetFailures) :
        ∃ t' n later s, ⟨t, op, r⟩ :: h = later ++ ⟨t', .addFailure, n⟩ :: s ∧
          (∀ e ∈ later, e.op ≠ .resetFailures) ∧ strikes s + 1 = strikes (⟨t, op, r⟩ :: h) := by
      obtain ⟨t', n, later, s, rfl, none, count⟩ := ih (same ▸ positive)
      exact ⟨t', n, _ :: later, s, rfl, List.forall_mem_cons.mpr ⟨other, none⟩, count.trans same.symm⟩
    cases op with
    | resetFailures => exact absurd positive (Nat.lt_irrefl 0)
    | addFailure => exact ⟨t, r, [], h, rfl, nofun, rfl⟩
    | openUntil | nowMs | send | count | openCircuit => exact earlier rfl nofun

/-- An operation that has come to its end leaves no failure that reaches the threshold. -/
theorem Ran.strikes_lt (ran : Ran config command e done) (told : h.Always Told)
    (own : h.own t = rest op e ++ done) {n : UInt32} {later s : History T Op Op.Res}
    (split : h = later ++ ⟨t, .addFailure, n⟩ :: s) (unreset : ∀ e ∈ later, e.op ≠ .resetFailures) :
    strikes s + 1 < config.threshold.toNat := by
  have strike : h.own t = History.own later t ++ ⟨.addFailure, n⟩ :: History.own s t := by
    rw [split, History.own_append, History.own_cons_self]
  have counted : ⟨.addFailure, n⟩ ∈ rest op e ++ done := by
    rw [← own, strike]
    exact List.mem_append_right _ List.mem_cons_self
  rw [own] at strike
  have reaches := threshold_le_iff config
    (told ⟨t, .addFailure, n⟩ s (split ▸ List.suffix_append _ _))
  cases ran with
  | refused => simp [rest] at counted
  | succeeded => cases op <;> simp [rest] at counted
  | failed late fails below =>
    obtain rfl : n = _ := by simpa [rest] using counted
    exact Nat.lt_of_not_le (reaches.not.mp below)
  | opened =>
    -- the reset comes after the count, where there is none
    cases newer : History.own later t with
    | nil =>
      rw [newer] at strike
      cases (List.cons.inj strike).1
    | cons last older =>
      rw [newer] at strike
      obtain rfl := (List.cons.inj strike).1
      have reset : ⟨t, .resetFailures, ()⟩ ∈ later :=
        History.mem_own.mp (newer ▸ List.mem_cons_self)
      exact absurd rfl (unreset _ reset)

end

section
variable {T : Type} [DecidableEq T] {blake3 : Bytes → String} {config : RedisCacheConfig}
variable {ops : T → BackendOp} {d : Config T Op Op.Res RedisCacheBackend Reply}

theorem kept_of_run {α : Type} {tasks : T → Code α} {c : Config T Op Op.Res RedisCacheBackend α}
    (run : Reaches (machine T) FewFailures ⟨connect config, [], tasks⟩ c) :
    Kept c.world c.history := by
  have initially : Kept (T := T) (connect config) [] :=
    ⟨rfl, rfl, fun c => by cases c <;> rfl, History.always_nil⟩
  exact (run.preserves kept_preserved (fun t => Prog.ensures_true) initially).1

/-- Where every failure that was counted is one of an operation that has ended, too few of them are left
to open the circuit. -/
theorem Kept.few {b : RedisCacheBackend} {h : History T Op Op.Res} (kept : Kept b h)
    (ended : ∀ t n, ⟨.addFailure, n⟩ ∈ h.own t → ∃ e done, h.own t = rest (ops t) e ++ done ∧
      Ran config (command blake3 config (ops t)) e done) :
    b.consecutiveFailures.toNat < max config.circuitFailureThreshold.toNat 1 := by
  rw [kept.failures, ← toNat_threshold]
  by_contra many
  have positive : 0 < strikes h := by
    rw [toNat_threshold] at many
    omega
  obtain ⟨t, n, later, s, split, unreset, count⟩ := exists_strike positive
  have struck : ⟨.addFailure, n⟩ ∈ h.own t := by
    rw [History.mem_own, split]
    exact List.mem_append_right _ List.mem_cons_self
  obtain ⟨e, done, own, ran⟩ := ended t n struck
  have few := ran.strikes_lt kept.told own split unreset
  omega

private theorem ran_of_run (run : Reaches (machine T) FewFailures (initial blake3 config ops) d) {t : T}
    {reply : Reply} (returned : d.tasks t = .ret reply) :
    ∃ e done, d.history.own t = rest (ops t) e ++ done ∧
      Ran config (command blake3 config (ops t)) e done ∧
      (e = .succeeded ↔ ¬ reply.1.Failed reply.2) :=
  (run.obeys fun t => ensures_program (ops t)).returned returned

/-- However the operations of a client overlap, as long as fewer than `2 ^ 32` failures are counted in a
row: an operation is refused, without a command, exactly if the clock is before the end of the last opening
when it starts; a failure opens the circuit exactly if it is at least the threshold's in a row at the moment
it is counted. When all operations have returned, fewer failures than the threshold are left, and the metrics
count what the operations have come to. -/
theorem overlapping_operations_follow_breaker [Fintype T]
    (run : Reaches (machine T) FewFailures (initial blake3 config ops) d) :
    (∀ t reply, d.tasks t = .ret reply → ∃ e, Judged config d.history t e ∧
      (e = .succeeded ↔ ¬ reply.1.Failed reply.2)) ∧
    (d.Finished → d.world.consecutiveFailures.toNat < max config.circuitFailureThreshold.toNat 1 ∧
      ∃ events : T → Redis.Event, (∀ t, Judged config d.history t (events t)) ∧
        ∀ c, (RedisMetrics.counter d.world.metrics c).toNat =
          (Finset.univ.filter fun t => counts (ops t) (events t) c).card % 2 ^ 64) := by
  have kept := kept_of_run run
  refine ⟨fun t reply returned => ?_, fun finished => ?_⟩
  · obtain ⟨e, done, own, ran, answered⟩ := ran_of_run run returned
    exact ⟨e, ran.judged kept.told own, answered⟩
  · have courses (t : T) : ∃ e done, d.history.own t = rest (ops t) e ++ done ∧
        Ran config (command blake3 config (ops t)) e done := by
      obtain ⟨reply, returned⟩ := finished t
      obtain ⟨e, done, own, ran, -⟩ := ran_of_run run returned
      exact ⟨e, done, own, ran⟩
    choose events done own ran using courses
    refine ⟨?_, events, fun t => (ran t).judged kept.told (own t), fun c => ?_⟩
    · exact kept.few fun t _ _ => ⟨events t, done t, own t, ran t⟩
    · rw [kept.counters c, History.countP_eq_sum_own (fun e => e.1 = Op.count c), Finset.card_filter]
      refine congrArg (· % 2 ^ 64) (Finset.sum_congr rfl fun t _ => ?_)
      rw [own t, (ran t).countP c]
      cases counts (ops t) (events t) c <;> rfl

end

/-- Two reads that time out. -/
def unanswered : Bool → BackendOp := fun _ => .get "d1"

def silence : Choice := ⟨5, fun _ => .timeout⟩

/-- A circuit that one failure opens is opened twice by two reads that begin before it is open. -/
theorem racing_failures_open_twice : ∃ d : Config Bool Op Op.Res RedisCacheBackend Reply,
    d.world.metrics.circuitOpens = 2 ∧ ∃ events : Bool → Redis.Event, ∀ t,
      Judged { circuitFailureThreshold := 1 } d.history t (events t) := by
  obtain ⟨d, run, seen⟩ := play_observed (M := machine Bool) (A := FewFailures)
    (c := initial Sample.hash { circuitFailureThreshold := 1 } unanswered)
    (List.replicate 4 (false, silence) ++ List.replicate 9 (true, silence) ++
      List.replicate 5 (false, silence))
    (fun d => decide (d.Finished ∧ d.world.metrics.circuitOpens = 2)) (by decide +kernel)
  obtain ⟨finished, twice⟩ := of_decide_eq_true seen
  obtain ⟨events, judged, -⟩ := ((overlapping_operations_follow_breaker run).2 finished).2
  exact ⟨d, twice, events, judged⟩

end RbatisCache.Redis.Concurrent
