import RbatisCache.Interleaving.Program
import RbatisCache.RbatisInterceptor.L1Cache
import RbatisCache.RbatisInterceptor.SingleFlight
import RbatisCache.RbatisInterceptor.TransactionalCache
import RbatisCache.Spi.Backend
import RbatisCache.Spi.Envelope
import RbatisCache.Spi.Policy

/-! The executor integration (`rbatis_intercept.rs`, `listener.rs`). Every hook call is a program
over the shared caches; a statement of an executor is its hooks around one database operation. -/
namespace RbatisCache.RbatisInterceptor
open Interleaving
open Interleaving.Prog (perform)

/-- What the hooks distinguish about a query result. -/
inductive Shape where
  | null
  | array (length : Nat)
  | other

/-- `rbs::Value` and its MessagePack codec, errors already rendered. -/
structure ValueCodec (V : Type) where
  toVecNamed : V → Except String Bytes
  fromSlice : Bytes → Except String V
  argsToVecNamed : List V → Except String Bytes
  shape : V → Shape

/-- `is_empty`. -/
def ValueCodec.isEmpty {V : Type} (C : ValueCodec V) (value : V) : Bool :=
  match C.shape value with
  | .null => true
  | .array length => length == 0
  | .other => false

def ValueCodec.argsToBytes {V : Type} (C : ValueCodec V) (args : List V) : Bytes :=
  match C.argsToVecNamed args with
  | .ok bytes => bytes
  | .error _ => []

/-- What the hooks ask an `Executor` for. -/
structure Executor where
  id : Int
  name : String
  driverType : Except String String
  deriving DecidableEq

/-- The arguments that `before` and `after` share. -/
structure Call (V : Type) where
  taskId : Int
  rb : Executor
  sql : String
  args : List V
  deriving DecidableEq

structure ExecResult where
  rowsAffected : UInt64
  deriving DecidableEq

/-- `rbatis::intercept::ResultType`. -/
inductive ResultType (α β : Type) where
  | exec (result : α)
  | query (result : β)
  deriving DecidableEq

/-- `rbatis::intercept::Action`; `return` comes with what `before` put into `query_result`. -/
inductive Action (V : Type) where
  | next
  | return (value : V)
  deriving DecidableEq

inductive TransactionEventType where
  | begin | commitSuccess | commitFailed | rollback | rollbackFailed
  deriving DecidableEq

structure TransactionEvent where
  eventType : TransactionEventType
  txId : Int
  deriving DecidableEq

/-- A call of one of the entry points of the interceptor and its listener. -/
inductive Hook (V : Type) where
  | before (call : Call V) (result : ResultType Unit Unit)
  | after (call : Call V) (result : ResultType (Except String ExecResult) (Except String V))
  | onEvent (event : TransactionEvent)
  deriving DecidableEq

inductive Op (V : Type) where
  | enter (hook : Hook V)
  | leave (hook : Hook V) (reply : Except String (Action V))
  | backend (op : BackendOp)
  | nowMs
  | instantNow
  | record (m : Metric)
  | l1Lookup (executorId : Int)
  | l1Replace (executorId : Int) (digest : String) (entry : L1Entry V)
  | l1Oldest
  | l1Remove (executorId : Int)
  | l1Insert (executorId : Int) (digest : String) (entry : L1Entry V)
  /-- `clear_for_executor`. -/
  | l1Clear (executorId : Int)
  | tryBeginLoad (digest : String)
  | finishLoad (digest : String) (success : Bool)
  | removeLoad (digest : String)
  /-- Whether the state of a load is `Loading`. -/
  | loading (load : LoadId)
  /-- The creation of a `Notified` future. -/
  | notified (load : LoadId)
  | awaitNotified (load : LoadId) (seen : Nat)
  | pendingGet (taskId : Int) (digest : String)
  /-- `buf.put` on the buffer of a transaction, if it has one. -/
  | bufferPut (taskId : Int) (key : CacheKey) (value : V)
  | clearNamespace (taskId : Int) (nameSpace : String)
  | insertBuffer (txId : Int)
  | removeBuffer (txId : Int)
  | databaseQuery (call : Call V)
  | databaseExec (call : Call V)
  deriving DecidableEq

@[reducible] def Op.Res {V : Type} : Op V → Type
  | .backend op => op.Res
  | .nowMs => UInt64
  | .instantNow => Instant
  | .l1Lookup _ => L1Lookup V
  | .l1Replace _ _ _ | .finishLoad _ _ | .loading _ | .bufferPut _ _ _ => Bool
  | .l1Oldest => Option Int
  | .tryBeginLoad _ => LoadRole
  | .notified _ => Nat
  | .pendingGet _ _ => Option V
  | .removeBuffer _ => Option (TransactionalCacheBuffer V)
  | .databaseQuery _ => Except String V
  | .databaseExec _ => Except String ExecResult
  | .enter _ | .leave _ _ | .record _ | .l1Remove _ | .l1Insert _ _ _ | .l1Clear _ | .removeLoad _
  | .awaitNotified _ _ | .clearNamespace _ _ | .insertBuffer _ => Unit

instance {V : Type} [DecidableEq V] : ∀ op : Op V, DecidableEq op.Res
  | .backend op => inferInstanceAs (DecidableEq op.Res)
  | .nowMs => inferInstanceAs (DecidableEq UInt64)
  | .instantNow | .notified _ => inferInstanceAs (DecidableEq Nat)
  | .l1Lookup _ => inferInstanceAs (DecidableEq (L1Lookup V))
  | .l1Replace _ _ _ | .finishLoad _ _ | .loading _ | .bufferPut _ _ _ =>
    inferInstanceAs (DecidableEq Bool)
  | .l1Oldest => inferInstanceAs (DecidableEq (Option Int))
  | .tryBeginLoad _ => inferInstanceAs (DecidableEq LoadRole)
  | .pendingGet _ _ => inferInstanceAs (DecidableEq (Option V))
  | .removeBuffer _ => inferInstanceAs (DecidableEq (Option (TransactionalCacheBuffer V)))
  | .databaseQuery _ => inferInstanceAs (DecidableEq (Except String V))
  | .databaseExec _ => inferInstanceAs (DecidableEq (Except String ExecResult))
  | .enter _ | .leave _ _ | .record _ | .l1Remove _ | .l1Insert _ _ _ | .l1Clear _ | .removeLoad _
  | .awaitNotified _ _ | .clearNamespace _ _ | .insertBuffer _ => inferInstanceAs (DecidableEq Unit)

/-- The fields of the interceptor that never change, with the listener built from it. -/
structure RbatisCacheInterceptor where
  nameSpace : String
  policy : CachePolicy

def maxSingleflightAttempts : Nat := 3

/-- `is_in_transaction`. -/
def Executor.isInTransaction (rb : Executor) : Bool := contains rb.name "RBatisTxExecutor"

namespace RbatisCacheInterceptor
variable {V : Type} (self : RbatisCacheInterceptor) (X : Externals Bytes) (C : ValueCodec V)

abbrev Code (V α : Type) := Prog (Op V) Op.Res α

def isCacheable (sql : String) : Bool :=
  match SqlMetadata.parse X.parser sql with
  | .error _ => false
  | .ok metadata =>
    if !metadata.isCacheable then false
    else match self.policy.useCacheFilter with
      | some filter => filter sql
      | none => true

/-- `build_key_input` on the arguments of a call. -/
def buildKeyInput (call : Call V) : CacheKeyInput where
  version := "1"
  dataSource := "default"
  driver := match call.rb.driverType with
    | .ok driver => driver
    | .error _ => "unknown"
  tenant := none
  nameSpace := self.nameSpace
  statementId := ""
  sql := call.sql
  parameters := C.argsToBytes call.args

def resolveKey (input : CacheKeyInput) : Code V (Except String CacheKey) := do
  match ← perform (Op.backend (.generation input.nameSpace)) with
  | .ok generation =>
    return (CacheKey.build X input generation).mapError fun e => "[rbatis-cache] " ++ e.display
  | .error e =>
    match self.policy.failureMode with
    | .failOpen =>
      perform (Op.record .backendError)
      return .error ("[rbatis-cache] generation fail-open: " ++ e.display)
    | .failClosed => return .error ("[rbatis-cache] generation fail-closed: " ++ e.display)

/-- `L1Cache::get`. -/
def l1Get (executorId : Int) : Code V (Option V) := do
  match ← perform (Op.l1Lookup executorId) with
  | .absent => return none
  | .expired =>
    perform (Op.l1Remove executorId)
    return none
  | .live value => return some value

/-- `L1Cache::put`. -/
def l1Put (executorId : Int) (digest : String) (value : V) : Code V Unit := do
  let now ← perform Op.instantNow
  let entry : L1Entry V := ⟨value, now + self.policy.ttl.nanos⟩
  if ← perform (Op.l1Replace executorId digest entry) then return ()
  else
    match ← perform Op.l1Oldest with
    | some oldest =>
      perform (Op.l1Remove oldest)
      perform (Op.l1Insert executorId digest entry)
    | none => perform (Op.l1Insert executorId digest entry)

def lookupValue (executorId : Int) (key : CacheKey) : Code V (Except String (Option V)) := do
  match ← l1Get executorId with
  | some v =>
    perform (Op.record .hit)
    return .ok (some v)
  | none =>
    match ← perform (Op.backend (.get key.digest)) with
    | .ok (some bytes) =>
      match CacheEnvelope.decode X bytes with
      | .error _ =>
        perform (Op.record .miss)
        return .ok none
      | .ok envelope =>
        let now ← perform Op.nowMs
        if envelope.isFresh key.generation now then
          match C.fromSlice envelope.payload with
          | .ok v =>
            perform (Op.record .hit)
            l1Put self executorId key.digest v
            return .ok (some v)
          | .error _ => return .ok none
        else
          perform (Op.record .miss)
          return .ok none
    | .ok none =>
      perform (Op.record .miss)
      return .ok none
    | .error e =>
      perform (Op.record .backendError)
      match self.policy.failureMode with
      | .failOpen => return .ok none
      | .failClosed => return .error ("[rbatis-cache] L2 get fail-closed: " ++ e.display)

def storeValue (key : CacheKey) (value : V) (ttl : Duration) : Code V (Except String Unit) := do
  match C.toVecNamed value with
  | .error e => return .error ("[rbatis-cache] encode: " ++ e)
  | .ok payload =>
    if self.policy.maxValueSize < payload.length then return .ok ()
    else
      let now ← perform Op.nowMs
      match (CacheEnvelope.new key payload ttl now).encode X with
      | .error e => return .error ("[rbatis-cache] envelope: " ++ e.display)
      | .ok envelope =>
        match ← perform (Op.backend (.put key.digest envelope ttl)) with
        | .ok _ => return .ok ()
        | .error e =>
          perform (Op.record .backendError)
          match self.policy.failureMode with
          | .failOpen => return .ok ()
          | .failClosed => return .error ("[rbatis-cache] L2 set fail-closed: " ++ e.display)

/-- `complete_load`. -/
def completeLoad (digest : String) (success : Bool) : Code V Unit := do
  if ← perform (Op.finishLoad digest success) then perform (Op.removeLoad digest)
  else return ()

/-- `LoadState::wait`. -/
def wait (load : LoadId) : Code V Unit := do
  if ← perform (Op.loading load) then
    let seen ← perform (Op.notified load)
    perform (Op.awaitNotified load seen)
  else return ()

/-- The singleflight loop of `before`; at most `remaining` elections are left. -/
def singleflightLoop (call : Call V) (digest : String) : Nat → Code V (Except String (Action V))
  | 0 => return .ok .next
  | remaining + 1 => do
    match ← perform (Op.tryBeginLoad digest) with
    | .leader => return .ok .next
    | .follower state =>
      if remaining = 0 then return .ok .next
      else
        wait state
        match ← resolveKey self X (buildKeyInput self C call) with
        | .error _ => return .ok .next
        | .ok key =>
          match ← lookupValue self X C call.rb.id key with
          | .error e => return .error e
          | .ok (some v) => return .ok (.return v)
          | .ok none => singleflightLoop call digest remaining

/-- The part of `before` that follows the checks for transactions. -/
def beforeLookup (call : Call V) : Code V (Except String (Action V)) := do
  match ← resolveKey self X (buildKeyInput self C call) with
  | .error e =>
    match self.policy.failureMode with
    | .failOpen => return .ok .next
    | .failClosed => return .error e
  | .ok key =>
    match ← lookupValue self X C call.rb.id key with
    | .error e => return .error e
    | .ok (some v) => return .ok (.return v)
    | .ok none =>
      if self.policy.blocking then
        singleflightLoop self X C call key.digest maxSingleflightAttempts
      else return .ok .next

/-- What the transaction buffer holds for a query: it is asked under generation 0. -/
def bufferedValue (call : Call V) : Code V (Option V) := do
  if call.rb.isInTransaction && self.policy.transactionMode == .defer then
    match CacheKey.build X (buildKeyInput self C call) 0 with
    | .ok key => perform (Op.pendingGet call.taskId key.digest)
    | .error _ => return none
  else return none

def before (call : Call V) : ResultType Unit Unit → Code V (Except String (Action V))
  | .exec _ => return .ok .next
  | .query _ => do
    if !isCacheable self X call.sql then return .ok .next
    else
      match ← bufferedValue self X C call with
      | some v => return .ok (.return v)
      | none =>
        if call.rb.isInTransaction && self.policy.transactionMode == .bypass then
          return .ok .next
        else beforeLookup self X C call

/-- The part of `after` that fills the buffer or the backend with a query result. -/
def afterStore (call : Call V) (key : CacheKey) (value : V) : Code V (Except String Unit) := do
  if !self.policy.cacheNull && C.isEmpty value then return .ok ()
  else
    let ttl := if C.isEmpty value then self.policy.nullTtl.getD self.policy.ttl else self.policy.ttl
    if call.rb.isInTransaction && self.policy.transactionMode == .defer then
      if ← perform (Op.bufferPut call.taskId key value) then return .ok ()
      else storeValue self X C key value ttl
    else storeValue self X C key value ttl

def afterQuery (call : Call V) (result : Except String V) : Code V (Except String Unit) := do
  if !isCacheable self X call.sql then return .ok ()
  else
    match ← resolveKey self X (buildKeyInput self C call) with
    | .error _ => return .ok ()
    | .ok key =>
      completeLoad key.digest result.isOk
      match result with
      | .error _ => return .ok ()
      | .ok value =>
        l1Put self call.rb.id key.digest value
        afterStore self X C call key value

/-- The part of `after` that invalidates outside transactions. -/
def invalidate : Code V (Except String Unit) := do
  match ← perform (Op.backend (.bumpGeneration self.nameSpace)) with
  | .ok _ =>
    perform (Op.record .invalidation)
    return .ok ()
  | .error e =>
    perform (Op.record .backendError)
    match self.policy.failureMode with
    | .failOpen => return .ok ()
    | .failClosed => return .error ("[rbatis-cache] invalidate fail-closed: " ++ e.display)

def afterExec (call : Call V) (result : Except String ExecResult) : Code V (Except String Unit) :=
  match result with
  | .error _ => return .ok ()
  | .ok er =>
    if 0 < er.rowsAffected then do
      perform (Op.l1Clear call.rb.id)
      if call.rb.isInTransaction then
        if self.policy.transactionMode == .defer then
          perform (Op.clearNamespace call.taskId self.nameSpace)
          return .ok ()
        else return .ok ()
      else invalidate self
    else return .ok ()

def after (call : Call V) :
    ResultType (Except String ExecResult) (Except String V) → Code V (Except String Unit)
  | .query result => afterQuery self X C call result
  | .exec result => afterExec self call result

/-! ### The transaction listener -/

def flushNamespaces : List String → Code V (Except CacheError Unit)
  | [] => return .ok ()
  | nameSpace :: rest => do
    match ← perform (Op.backend (.bumpGeneration nameSpace)) with
    | .error e => return .error e
    | .ok _ => flushNamespaces rest

def flushEntries (ttl : Duration) : List (CacheKey × V) → Code V (Except CacheError Unit)
  | [] => return .ok ()
  | (key, value) :: rest => do
    match C.toVecNamed value with
    | .error e => return .error (.codec e)
    | .ok payload =>
      let now ← perform Op.nowMs
      match (CacheEnvelope.new key payload ttl now).encode X with
      | .error e => return .error e
      | .ok envelope =>
        match ← perform (Op.backend (.put key.digest envelope ttl)) with
        | .error e => return .error e
        | .ok _ => flushEntries ttl rest

def flushTo (buffer : TransactionalCacheBuffer V) : Code V (Except CacheError Unit) := do
  match ← flushNamespaces buffer.nameSpaces with
  | .error e => return .error e
  | .ok _ => flushEntries X C buffer.ttl buffer.entries

/-- `CacheTransactionListener::on_event`; errors of the flush and of the bump are only logged. -/
def onEvent (event : TransactionEvent) : Code V Unit := do
  match event.eventType with
  | .begin =>
    if self.policy.transactionMode == .defer then perform (Op.insertBuffer event.txId)
    else return ()
  | .commitSuccess =>
    if self.policy.transactionMode == .defer then
      match ← perform (Op.removeBuffer event.txId) with
      | some buffer =>
        let _ ← flushTo X C buffer
        return ()
      | none => return ()
    else
      let _ ← perform (Op.backend (.bumpGeneration self.nameSpace))
      return ()
  | .commitFailed | .rollback | .rollbackFailed =>
    -- nobody else holds the removed buffer, so discarding it has no further effect
    let _ ← perform (Op.removeBuffer event.txId)
    return ()

/-! ### Hook calls and statements -/

def runHook : Hook V → Code V (Except String (Action V))
  | .before call result => before self X C call result
  | .after call result => do
    match ← after self X C call result with
    | .ok _ => return .ok .next
    | .error e => return .error e
  | .onEvent event => do
    onEvent self X C event
    return .ok .next

/-- A hook call as its caller observes it. -/
def invoke (hook : Hook V) : Code V (Except String (Action V)) := do
  perform (Op.enter hook)
  let reply ← runHook self X C hook
  perform (Op.leave hook reply)
  return reply

/-- A query of an executor whose only interceptor is this one. -/
def query (call : Call V) : Code V (Except String V) := do
  match ← invoke self X C (.before call (.query ())) with
  | .error e => return .error e
  | .ok (.return value) => return .ok value
  | .ok .next =>
    let result ← perform (Op.databaseQuery call)
    match ← invoke self X C (.after call (.query result)) with
    | .error e => return .error e
    | .ok _ => return result

/-- An exec of such an executor. -/
def exec (call : Call V) : Code V (Except String ExecResult) := do
  match ← invoke self X C (.before call (.exec ())) with
  | .error e => return .error e
  | .ok _ =>
    let result ← perform (Op.databaseExec call)
    match ← invoke self X C (.after call (.exec result)) with
    | .error e => return .error e
    | .ok _ => return result

end RbatisCacheInterceptor

inductive Statement (V : Type) where
  | query (call : Call V)
  | exec (call : Call V)

/-- What the tasks that share an interceptor do: the statements of the executors, and hook calls
by anybody else. -/
inductive Task (V : Type) where
  | statement (s : Statement V)
  | hook (hook : Hook V)

inductive Reply (V : Type) where
  | queried (result : Except String V)
  | executed (result : Except String ExecResult)
  | hooked (result : Except String (Action V))
  deriving DecidableEq

def Task.program {V : Type} (self : RbatisCacheInterceptor) (X : Externals Bytes) (C : ValueCodec V) :
    Task V → Prog (Op V) Op.Res (Reply V)
  | .statement (.query call) => do return .queried (← self.query X C call)
  | .statement (.exec call) => do return .executed (← self.exec X C call)
  | .hook h => do return .hooked (← self.invoke X C h)

structure World (B : CacheBackend) (V : Type) where
  backend : B.State
  metrics : CacheMetrics
  l1 : L1Cache V
  singleflight : SingleFlight
  txBuffers : DashMap Int (TransactionalCacheBuffer V)

structure Choice (B : CacheBackend) (V : Type) where
  backend : B.Choice
  now : UInt64
  instant : Instant
  /-- `try_lock` of `complete_load` fails. -/
  contended : Bool
  /-- `FOLLOWER_WAIT_TIMEOUT` has elapsed. -/
  elapsed : Bool
  queried : Except String V
  executed : Except String ExecResult

namespace World
variable {B : CacheBackend} {V : Type}

/-- `RbatisCacheInterceptor::new`. -/
def new (policy : CachePolicy) (backend : B.State) : World B V :=
  ⟨backend, {}, .new policy.l1MaxEntries policy.ttl, .new, ∅⟩

def pendingGet (w : World B V) (taskId : Int) (digest : String) : Option V :=
  (w.txBuffers.lookup taskId).bind fun buffer => buffer.pendingGet digest

/-- Change the buffer of a transaction, if it has one. -/
def onBuffer (w : World B V) (taskId : Int)
    (f : TransactionalCacheBuffer V → TransactionalCacheBuffer V) : Bool × World B V :=
  match w.txBuffers.lookup taskId with
  | none => (false, w)
  | some buffer => (true, { w with txBuffers := w.txBuffers.replace taskId (f buffer) })

def setL1 (w : World B V) (l1 : L1Cache V) : World B V := { w with l1 := l1 }

def setFlight (w : World B V) (singleflight : SingleFlight) : World B V :=
  { w with singleflight := singleflight }

end World

/-- The atomic steps of the hooks. -/
def machine (B : CacheBackend) (V T : Type) (self : RbatisCacheInterceptor) :
    Machine T (Op V) Op.Res (Choice B V) (World B V) where
  perform _ op ch w :=
    match op with
    | .enter _ | .leave _ _ => some ((), w)
    | .backend op =>
      let (result, state) := B.perform op ch.backend w.backend
      some (result, { w with backend := state })
    | .nowMs => some (ch.now, w)
    | .instantNow => some (ch.instant, w)
    | .record m => some ((), { w with metrics := w.metrics.record m })
    | .l1Lookup executorId => some (w.l1.lookup executorId ch.instant, w)
    | .l1Replace executorId _ entry =>
      let (replaced, l1) := w.l1.replace executorId entry
      some (replaced, w.setL1 l1)
    | .l1Oldest => some (w.l1.oldest, w)
    | .l1Remove executorId | .l1Clear executorId => some ((), w.setL1 (w.l1.remove executorId))
    | .l1Insert executorId _ entry => some ((), w.setL1 (w.l1.insert executorId entry))
    | .tryBeginLoad digest =>
      let (role, flight) := w.singleflight.tryBeginLoad digest
      some (role, w.setFlight flight)
    | .finishLoad digest success =>
      let (found, flight) := w.singleflight.finishLoad digest success ch.contended
      some (found, w.setFlight flight)
    | .removeLoad digest => some ((), w.setFlight (w.singleflight.removeLoad digest))
    | .loading load => some (decide ((w.singleflight.states load).value = .loading), w)
    | .notified load => some ((w.singleflight.states load).notified, w)
    | .awaitNotified load seen =>
      if ch.elapsed ∨ (w.singleflight.states load).notified ≠ seen then some ((), w) else none
    | .pendingGet taskId digest => some (w.pendingGet taskId digest, w)
    | .bufferPut taskId key value => some (w.onBuffer taskId fun buffer => buffer.put key value)
    | .clearNamespace taskId nameSpace =>
      some ((), (w.onBuffer taskId fun buffer => buffer.clearNamespace nameSpace).2)
    | .insertBuffer txId =>
      some ((), { w with txBuffers := w.txBuffers.insert txId (.new self.policy.ttl) })
    | .removeBuffer txId =>
      some (w.txBuffers.lookup txId, { w with txBuffers := w.txBuffers.erase txId })
    | .databaseQuery _ => some (ch.queried, w)
    | .databaseExec _ => some (ch.executed, w)

abbrev History (V T : Type) := Interleaving.History T (Op V) Op.Res

/-- Any number of tasks that share one interceptor. -/
def initial {B : CacheBackend} {V T : Type} (self : RbatisCacheInterceptor) (X : Externals Bytes)
    (C : ValueCodec V) (tasks : T → Task V) (backend : B.State) :
    Config T (Op V) Op.Res (World B V) (Reply V) :=
  ⟨.new self.policy backend, [], fun t => (tasks t).program self X C⟩

end RbatisCache.RbatisInterceptor
