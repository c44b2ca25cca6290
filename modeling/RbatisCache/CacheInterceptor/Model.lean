import RbatisCache.Collections.DashMap
import RbatisCache.Interleaving.Program
import RbatisCache.Spi.Backend
import RbatisCache.Spi.Envelope
import RbatisCache.Spi.Policy

/-! The loader-based interceptor (`interceptor.rs`). Its calls are programs over the shared
backend, the metrics, the flight table and the database behind the loaders. -/
namespace RbatisCache.CacheInterceptor
open Interleaving Interleaving.Prog

structure CacheRequest where
  key : CacheKeyInput
  inTransaction : Bool

/-- An `Arc<Mutex<()>>` of the flight table, numbered in the order of creation. -/
abbrev FlightId := Nat

inductive Op where
  | backend (op : BackendOp)
  | nowMs
  | record (m : Metric)
  /-- `flights.entry(digest).or_insert_with(..).clone()`. -/
  | flightsEntry (digest : String)
  | lock (flight : FlightId)
  /-- The drop of the lock guard. -/
  | unlock (flight : FlightId)
  | releaseFlight (digest : String) (flight : FlightId)
  /-- The drop of a call's clone of the `Arc`. -/
  | dropFlight (flight : FlightId)
  | loaderStart
  | loaderFinish
  | databaseRead
  | databaseWrite
  deriving DecidableEq

@[reducible] def Op.Res (P : Type) : Op → Type
  | .backend op => op.Res
  | .nowMs => UInt64
  | .flightsEntry _ => FlightId
  | .databaseRead => Except CacheError P
  | .record _ | .lock _ | .unlock _ | .releaseFlight _ _ | .dropFlight _ | .loaderStart
  | .loaderFinish | .databaseWrite => Unit

instance {P : Type} [DecidableEq P] : ∀ op : Op, DecidableEq (op.Res P)
  | .backend op => inferInstanceAs (DecidableEq op.Res)
  | .nowMs => inferInstanceAs (DecidableEq UInt64)
  | .flightsEntry _ => inferInstanceAs (DecidableEq FlightId)
  | .databaseRead => inferInstanceAs (DecidableEq (Except CacheError P))
  | .record _ | .lock _ | .unlock _ | .releaseFlight _ _ | .dropFlight _ | .loaderStart
  | .loaderFinish | .databaseWrite => inferInstanceAs (DecidableEq Unit)

section
variable {P : Type} (X : Externals P) (policy : CachePolicy)

/-- A loader: code of the caller, of which only its read of the database is observed. -/
def loader : Prog Op (Op.Res P) (Except CacheError P) := do
  perform Op.loaderStart
  let result ← perform Op.databaseRead
  perform Op.loaderFinish
  return result

def load : Prog Op (Op.Res P) (Except CacheError P) := do
  perform (Op.record .load)
  loader

def bypass : Prog Op (Op.Res P) (Except CacheError P) := do
  perform (Op.record .bypass)
  load

def cached (key : CacheKey) : Prog Op (Op.Res P) (Option P) := do
  match ← perform (Op.backend (.get key.digest)) with
  | .error _ =>
    perform (Op.record .backendError)
    return none
  | .ok none => return none
  | .ok (some bytes) =>
    match CacheEnvelope.decode X bytes with
    | .error _ => return none
    | .ok envelope =>
      let now ← perform Op.nowMs
      return if envelope.isFresh key.generation now then some envelope.payload else none

/-- The part of `get_or_load` that fills the cache after a load; the error is that of `encode`. -/
def backfill (key : CacheKey) (payload : P) : Prog Op (Op.Res P) (Except CacheError Unit) := do
  if X.len payload ≤ policy.maxValueSize then
    let now ← perform Op.nowMs
    match (CacheEnvelope.new key payload policy.ttl now).encode X with
    | .error e => return .error e
    | .ok envelope =>
      match ← perform (Op.backend (.put key.digest envelope policy.ttl)) with
      | .error _ =>
        perform (Op.record .backendError)
        return .ok ()
      | .ok _ => return .ok ()
  else return .ok ()

/-- What every regular exit from the flight section does. -/
def leaveFlight (key : CacheKey) (flight : FlightId) : Prog Op (Op.Res P) Unit := do
  perform (Op.unlock flight)
  perform (Op.releaseFlight key.digest flight)
  perform (Op.dropFlight flight)

/-- What the `?` operators of the flight section do: the locals are dropped, nothing else. -/
def abandonFlight (flight : FlightId) : Prog Op (Op.Res P) Unit := do
  perform (Op.unlock flight)
  perform (Op.dropFlight flight)

/-- The part of `get_or_load` between the first miss and the return. -/
def flightSection (key : CacheKey) : Prog Op (Op.Res P) (Except CacheError P) := do
  let flight ← perform (Op.flightsEntry key.digest)
  perform (Op.lock flight)
  match ← cached X key with
  | some payload =>
    perform (Op.record .hit)
    leaveFlight key flight
    return .ok payload
  | none =>
    match ← load with
    | .error e =>
      abandonFlight flight
      return .error e
    | .ok payload =>
      match ← backfill X policy key payload with
      | .error e =>
        abandonFlight flight
        return .error e
      | .ok _ =>
        leaveFlight key flight
        return .ok payload

def getOrLoad (request : CacheRequest) : Prog Op (Op.Res P) (Except CacheError P) :=
  match SqlMetadata.parse X.parser request.key.sql with
  | .error _ => bypass
  | .ok metadata =>
    if request.inTransaction || metadata.kind != .select then bypass
    else do
      match ← perform (Op.backend (.generation request.key.nameSpace)) with
      | .error _ =>
        perform (Op.record .backendError)
        load
      | .ok generation =>
        match CacheKey.build X request.key generation with
        | .error _ => load
        | .ok key =>
          match ← cached X key with
          | some payload =>
            perform (Op.record .hit)
            return .ok payload
          | none =>
            perform (Op.record .miss)
            flightSection X policy key

def invalidateAfterCommit (nameSpace : String) : Prog Op (Op.Res P) (Except CacheError UInt64) := do
  match ← perform (Op.backend (.bumpGeneration nameSpace)) with
  | .error e => return .error e
  | .ok generation =>
    perform (Op.record .invalidation)
    return .ok generation

/-- What the tasks that share an interceptor do. A writer commits a write to the database and
then invalidates. -/
inductive Task where
  | getOrLoad (request : CacheRequest)
  | write (nameSpace : String)

inductive Reply (P : Type) where
  | payload (result : Except CacheError P)
  | invalidated (result : Except CacheError UInt64)
  deriving DecidableEq

def Task.program : Task → Prog Op (Op.Res P) (Reply P)
  | .getOrLoad request => do return .payload (← CacheInterceptor.getOrLoad X policy request)
  | .write nameSpace => do
    perform Op.databaseWrite
    return .invalidated (← invalidateAfterCommit nameSpace)

end

/-- The reference count and the mutex of an `Arc<Mutex<()>>`. -/
structure Flight (T : Type) where
  strong : Nat
  owner : Option T

structure World (B : CacheBackend) (T : Type) where
  backend : B.State
  metrics : CacheMetrics
  flights : DashMap String FlightId
  arcs : FlightId → Flight T
  /-- The number of flights created so far. -/
  created : FlightId

structure Choice (B : CacheBackend) (P : Type) where
  backend : B.Choice
  now : UInt64
  loaded : Except CacheError P

namespace World
variable {B : CacheBackend} {T : Type}

/-- `CacheInterceptor::new`. -/
def new (backend : B.State) : World B T := ⟨backend, {}, ∅, fun _ => ⟨0, none⟩, 0⟩

def setArc (w : World B T) (flight : FlightId) (arc : Flight T) : World B T :=
  { w with arcs := Function.update w.arcs flight arc }

@[simp] theorem setArc_flights (w : World B T) (f : FlightId) (arc : Flight T) :
    (w.setArc f arc).flights = w.flights := rfl
@[simp] theorem setArc_created (w : World B T) (f : FlightId) (arc : Flight T) :
    (w.setArc f arc).created = w.created := rfl
@[simp] theorem setArc_self (w : World B T) (f : FlightId) (arc : Flight T) :
    (w.setArc f arc).arcs f = arc := Function.update_self _ _ _
theorem setArc_ne (w : World B T) {f g : FlightId} (arc : Flight T) (h : g ≠ f) :
    (w.setArc f arc).arcs g = w.arcs g := Function.update_of_ne h _ _

theorem setArc_owner (w : World B T) {f : FlightId} {arc : Flight T}
    (same : arc.owner = (w.arcs f).owner) (g : FlightId) :
    ((w.setArc f arc).arcs g).owner = (w.arcs g).owner := by
  by_cases hg : g = f
  · subst hg
    rw [setArc_self, same]
  · rw [setArc_ne _ _ hg]

def flightsEntry (w : World B T) (digest : String) : FlightId × World B T :=
  match w.flights.lookup digest with
  | some flight =>
    let arc := w.arcs flight
    (flight, w.setArc flight { arc with strong := arc.strong + 1 })
  | none =>
    let w' := { w with flights := w.flights.insert digest w.created, created := w.created + 1 }
    (w.created, w'.setArc w.created ⟨2, none⟩)

def lock (w : World B T) (t : T) (flight : FlightId) : Option (World B T) :=
  let arc := w.arcs flight
  if arc.owner.isNone then some (w.setArc flight { arc with owner := some t }) else none

def unlock (w : World B T) (flight : FlightId) : World B T :=
  w.setArc flight { w.arcs flight with owner := none }

def dropFlight (w : World B T) (flight : FlightId) : World B T :=
  let arc := w.arcs flight
  w.setArc flight { arc with strong := arc.strong - 1 }

def releaseFlight (w : World B T) (digest : String) (flight : FlightId) : World B T :=
  match w.flights.lookup digest with
  | none => w
  | some occupied =>
    if occupied = flight ∧ (w.arcs occupied).strong = 2 then
      { w with flights := w.flights.erase digest }.dropFlight occupied
    else w

end World

/-- The atomic steps of the calls. -/
def machine (B : CacheBackend) (P T : Type) : Machine T Op (Op.Res P) (Choice B P) (World B T) where
  perform t op ch w :=
    match op with
    | .backend op =>
      let (result, state) := B.perform op ch.backend w.backend
      some (result, { w with backend := state })
    | .nowMs => some (ch.now, w)
    | .record m => some ((), { w with metrics := w.metrics.record m })
    | .flightsEntry digest => some (w.flightsEntry digest)
    | .lock flight => (w.lock t flight).map fun w => ((), w)
    | .unlock flight => some ((), w.unlock flight)
    | .releaseFlight digest flight => some ((), w.releaseFlight digest flight)
    | .dropFlight flight => some ((), w.dropFlight flight)
    | .databaseRead => some (ch.loaded, w)
    | .loaderStart | .loaderFinish | .databaseWrite => some ((), w)

theorem backend_of_perform {B : CacheBackend} {P T : Type} {t : T} {op : Op} {ch : Choice B P}
    {w u : World B T} {r : op.Res P} (hop : ∀ o, op ≠ .backend o)
    (h : (machine B P T).perform t op ch w = some (r, u)) : u.backend = w.backend := by
  cases op with
  | backend o => exact absurd rfl (hop o)
  | flightsEntry digest =>
    have hu : (w.flightsEntry digest).2 = u := congrArg Prod.snd (Option.some.inj h)
    rw [← hu, World.flightsEntry]
    split <;> rfl
  | lock flight =>
    obtain ⟨v, hv, he⟩ := Option.map_eq_some_iff.mp h
    have hu : v = u := congrArg Prod.snd he
    rw [← hu]
    simp only [World.lock] at hv
    split at hv
    · cases hv
      rfl
    · cases hv
  | releaseFlight digest flight =>
    have hu : w.releaseFlight digest flight = u := congrArg Prod.snd (Option.some.inj h)
    rw [← hu, World.releaseFlight]
    split
    · rfl
    · split <;> rfl
  | _ =>
    cases h
    rfl

abbrev History (P T : Type) := Interleaving.History T Op (Op.Res P)

/-- Any number of tasks that share one interceptor. -/
def initial {B : CacheBackend} {P T : Type} (X : Externals P) (policy : CachePolicy)
    (tasks : T → Task) (backend : B.State) :
    Config T Op (Op.Res P) (World B T) (Reply P) :=
  ⟨.new backend, [], fun t => (tasks t).program X policy⟩

end RbatisCache.CacheInterceptor
