import RbatisCache.RbatisInterceptor.Model
import RbatisCache.Spi.LocalBackend
import RbatisCache.Spi.Sample

/-! Concrete values, executors and interceptors, on which the hooks can be run. -/
namespace RbatisCache.Sample
open RbatisInterceptor Interleaving

def codec : ValueCodec UInt64 where
  toVecNamed v := .ok (toLeBytes v)
  fromSlice bytes := .ok (fromLeBytes bytes)
  argsToVecNamed args := .ok (args.flatMap toLeBytes)
  shape _ := .other

/-- Bypass mode and the default policy. -/
def interceptor : RbatisCacheInterceptor := ⟨"ns", {}⟩

def deferring : RbatisCacheInterceptor := ⟨"ns", { transactionMode := .defer }⟩

/-- Bypass mode, and faults of the backend are reported. -/
def strict : RbatisCacheInterceptor := ⟨"ns", { failureMode := .failClosed }⟩

/-- A call on a plain connection. -/
def call (executorId : Int) (sql : String) : Call UInt64 where
  taskId := 0
  rb := ⟨executorId, "RBatisConnExecutor", .ok "sqlite"⟩
  sql := sql
  args := []

/-- A call in a transaction. -/
def txCall (txId : Int) (sql : String) : Call UInt64 where
  taskId := txId
  rb := ⟨txId, "RBatisTxExecutor", .ok "sqlite"⟩
  sql := sql
  args := []

theorem call_outside (executorId : Int) (sql : String) :
    (call executorId sql).rb.isInTransaction = false := by
  change contains "RBatisConnExecutor" "RBatisTxExecutor" = false
  decide +kernel

theorem txCall_inside (txId : Int) (sql : String) :
    (txCall txId sql).rb.isInTransaction = true := by
  change contains "RBatisTxExecutor" "RBatisTxExecutor" = true
  decide +kernel

def dml (call : Call UInt64) : RbatisInterceptor.Task UInt64 := .statement (.exec call)
def select (call : Call UInt64) : RbatisInterceptor.Task UInt64 := .statement (.query call)
def event (type : TransactionEventType) (txId : Int) : RbatisInterceptor.Task UInt64 :=
  .hook (.onEvent ⟨type, txId⟩)

abbrev Backend : CacheBackend := LocalBackend.backend hash

/-- An environment in which the database answers `v` and writes one row. -/
def reading (v : UInt64) : Choice Backend UInt64 where
  backend := ⟨[], 5⟩
  now := 5
  instant := 5
  contended := false
  elapsed := false
  queried := .ok v
  executed := .ok ⟨1⟩

abbrev FaultyState (T : Type) := Config T (Op UInt64) Op.Res (World faulty UInt64) (Reply UInt64)

/-- The environment of `reading`, with a backend that works or is down. -/
def faulting (fault : Option CacheError) (v : UInt64) : Choice faulty UInt64 :=
  ⟨fault, 5, 5, false, false, .ok v, .ok ⟨1⟩⟩

/-- An environment in which the backend answers as told and the database reads 7. -/
def told (answers : adversary.Choice) : Choice adversary UInt64 :=
  ⟨answers, 5, 5, false, false, .ok 7, .ok ⟨1⟩⟩

/-- A backend that fails at every call. -/
def outage : adversary.Choice
  | .get _ => .error (.backend "down")
  | .put _ _ _ => .error (.backend "down")
  | .generation _ => .error (.backend "down")
  | .bumpGeneration _ => .error (.backend "down")

abbrev State (T : Type) := Config T (Op UInt64) Op.Res (World Backend UInt64) (Reply UInt64)

abbrev Rules (T : Type) := Restriction T (Op UInt64) Op.Res (Choice Backend UInt64)
  (World Backend UInt64)

abbrev steps (T : Type) (self : RbatisCacheInterceptor) := machine Backend UInt64 T self

/-- A new interceptor over an empty `LocalBackend`. -/
abbrev start {T : Type} (self : RbatisCacheInterceptor) (tasks : T → RbatisInterceptor.Task UInt64) :
    State T :=
  initial self externals codec tasks (LocalBackend.withConfig {})

theorem call_fits (executorId : Int) :
    (interceptor.buildKeyInput codec (call executorId "SELECT 1")).Fits externals.parser := by
  change (interceptor.buildKeyInput codec (call 0 "SELECT 1")).Fits externals.parser
  exact fits_of_short rfl (by decide)

end RbatisCache.Sample
