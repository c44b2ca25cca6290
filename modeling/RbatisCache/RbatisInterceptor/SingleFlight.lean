import Mathlib.Data.List.AList
import RbatisCache.Collections.DashMap

/-! Election of one loader per digest across the hooks (`singleflight.rs`). -/
namespace RbatisCache

inductive LoadValue where
  | loading | done | failed
  deriving DecidableEq

/-- An `Arc<LoadState>`, numbered in the order of creation. -/
abbrev LoadId := Nat

/-- The value and the number of `notify_waiters` calls, which is what a `Notified` future compares
with the number at its creation. -/
structure LoadState where
  value : LoadValue
  notified : Nat

inductive LoadRole where
  | leader
  | follower (load : LoadId)
  deriving DecidableEq

structure SingleFlight where
  map : DashMap String LoadId
  states : LoadId → LoadState
  created : LoadId

namespace SingleFlight

def new : SingleFlight := ⟨∅, fun _ => ⟨.loading, 0⟩, 0⟩

def tryBeginLoad (s : SingleFlight) (digest : String) : LoadRole × SingleFlight :=
  match s.map.lookup digest with
  | some load => (.follower load, s)
  | none => (.leader, {
      map := s.map.insert digest s.created
      states := Function.update s.states s.created ⟨.loading, 0⟩
      created := s.created + 1 })

/-- What `complete_load` does while it holds the entry, if there is one. `contended` is a failure
of `try_lock`. -/
def finishLoad (s : SingleFlight) (digest : String) (success contended : Bool) :
    Bool × SingleFlight :=
  match s.map.lookup digest with
  | none => (false, s)
  | some load =>
    let state := s.states load
    let value := if contended then state.value else if success then .done else .failed
    (true, { s with states := Function.update s.states load ⟨value, state.notified + 1⟩ })

/-- The removal with which `complete_load` ends. -/
def removeLoad (s : SingleFlight) (digest : String) : SingleFlight :=
  { s with map := s.map.erase digest }

end SingleFlight
end RbatisCache
