import RbatisCache.Spi.Backend

/-! The backend over Redis (`rbatis-cache-redis`). Every operation sends one command to the server,
behind a timeout and a circuit breaker. -/
namespace RbatisCache.Redis

structure RedisCacheConfig where
  keyPrefix : String := "rbatis:cache"
  circuitFailureThreshold : UInt32 := 3
  circuitCooldown : Duration := .fromSecs 5

structure RedisMetrics where
  operations : UInt64 := 0
  errors : UInt64 := 0
  timeouts : UInt64 := 0
  circuitOpens : UInt64 := 0
  invalidations : UInt64 := 0
  deriving DecidableEq

structure RedisCacheBackend where
  config : RedisCacheConfig
  metrics : RedisMetrics
  consecutiveFailures : UInt32
  circuitOpenUntilMs : UInt64

inductive Command where
  | get (key : String)
  | psetex (key : String) (millis : UInt64) (value : Bytes)
  /-- A `GET` whose value is read as a number. -/
  | getNumber (key : String)
  | incr (key : String)
  deriving DecidableEq

@[reducible] def Command.Reply : Command → Type
  | .get _ => Option Bytes
  | .psetex _ _ _ => Unit
  | .getNumber _ => Option UInt64
  | .incr _ => UInt64

/-- What becomes of a command within the operation timeout. -/
inductive Outcome (T : Type) where
  | success (value : T)
  | error (message : String)
  | timeout

/-- What an operation does not decide itself: the two clocks it may read, when it starts and when it
fails, and the server. -/
structure Environment where
  now : UInt64
  failedAt : UInt64
  server : (command : Command) → Outcome command.Reply

/-- The result of an operation, the commands that were sent, and what is left. -/
structure Done (R : Type) where
  result : R
  sent : List Command
  backend : RedisCacheBackend

/-- `duration_ms`. -/
def durationMs (d : Duration) : UInt64 := u64OrMax d.asMillis

/-- `u32::saturating_add(1)`. -/
def saturatingSucc (n : UInt32) : UInt32 := if n.toNat + 1 < 2 ^ 32 then n + 1 else .ofNat (2 ^ 32 - 1)

/-- `circuit_failure_threshold.max(1)`. -/
def RedisCacheConfig.threshold (config : RedisCacheConfig) : UInt32 :=
  if config.circuitFailureThreshold < 1 then 1 else config.circuitFailureThreshold

namespace RedisCacheBackend

/-- `connect`, once the connection stands. -/
def connect (config : RedisCacheConfig) : RedisCacheBackend := ⟨config, {}, 0, 0⟩

def recordFailure (b : RedisCacheBackend) (now : UInt64) : RedisCacheBackend :=
  let f := saturatingSucc b.consecutiveFailures
  let b := { b with consecutiveFailures := b.consecutiveFailures + 1 }
  if b.config.threshold ≤ f then
    { b with
      circuitOpenUntilMs := saturatingAdd now (durationMs b.config.circuitCooldown)
      metrics := { b.metrics with circuitOpens := b.metrics.circuitOpens + 1 }
      consecutiveFailures := 0 }
  else b

def run (b : RedisCacheBackend) (op : Command) (env : Environment) : Done (Except CacheError op.Reply) :=
  if env.now < b.circuitOpenUntilMs then ⟨.error (.backend "redis circuit is open"), [], b⟩
  else match env.server op with
    | .success value =>
      ⟨.ok value, [op], { b with
        consecutiveFailures := 0
        metrics := { b.metrics with operations := b.metrics.operations + 1 } }⟩
    | .error message =>
      let b := { b with metrics := { b.metrics with errors := b.metrics.errors + 1 } }
      ⟨.error (.backend message), [op], b.recordFailure env.failedAt⟩
    | .timeout =>
      let b := { b with metrics := { b.metrics with timeouts := b.metrics.timeouts + 1 } }
      ⟨.error (.backend "redis operation timed out"), [op], b.recordFailure env.failedAt⟩

def entryKey (config : RedisCacheConfig) (digest : String) : String :=
  config.keyPrefix ++ (":entry:" ++ digest)

def generationKey (blake3 : Bytes → String) (config : RedisCacheConfig) (nameSpace : String) : String :=
  config.keyPrefix ++ (":generation:" ++ blake3 (utf8 nameSpace))

def get (b : RedisCacheBackend) (key : String) (env : Environment) :
    Done (Except CacheError (Option Bytes)) :=
  b.run (.get (entryKey b.config key)) env

def put (b : RedisCacheBackend) (key : String) (value : Bytes) (ttl : Duration) (env : Environment) :
    Done (Except CacheError Unit) :=
  let millis := if durationMs ttl < 1 then 1 else durationMs ttl
  b.run (.psetex (entryKey b.config key) millis value) env

def generation (blake3 : Bytes → String) (b : RedisCacheBackend) (nameSpace : String)
    (env : Environment) : Done (Except CacheError UInt64) :=
  let done := b.run (.getNumber (generationKey blake3 b.config nameSpace)) env
  { done with result := done.result.map fun gen => gen.getD 0 }

def bumpGeneration (blake3 : Bytes → String) (b : RedisCacheBackend) (nameSpace : String)
    (env : Environment) : Done (Except CacheError UInt64) :=
  let done := b.run (.incr (generationKey blake3 b.config nameSpace)) env
  match done.result with
  | .ok gen =>
    let metrics := done.backend.metrics
    ⟨.ok gen, done.sent, { done.backend with
      metrics := { metrics with invalidations := metrics.invalidations + 1 } }⟩
  | .error e => ⟨.error e, done.sent, done.backend⟩

def perform (blake3 : Bytes → String) (op : BackendOp) (env : Environment) (b : RedisCacheBackend) :
    Done op.Res :=
  match op with
  | .get key => b.get key env
  | .put key value ttl => b.put key value ttl env
  | .generation nameSpace => b.generation blake3 nameSpace env
  | .bumpGeneration nameSpace => b.bumpGeneration blake3 nameSpace env

/-- The one command of an operation. -/
def command (blake3 : Bytes → String) (config : RedisCacheConfig) : BackendOp → Command
  | .get key => .get (entryKey config key)
  | .put key value ttl =>
    .psetex (entryKey config key) (if durationMs ttl < 1 then 1 else durationMs ttl) value
  | .generation nameSpace => .getNumber (generationKey blake3 config nameSpace)
  | .bumpGeneration nameSpace => .incr (generationKey blake3 config nameSpace)

end RedisCacheBackend
end RbatisCache.Redis
