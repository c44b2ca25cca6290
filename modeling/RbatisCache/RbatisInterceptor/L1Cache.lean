import Mathlib.Data.List.AList
import RbatisCache.Collections.DashMap
import RbatisCache.Spi.Primitives

/-! The per-executor cache (`l1.rs`). The digests its methods take are ignored: an executor has
one slot, whatever was queried. -/
namespace RbatisCache

/-- `std::time::Instant`, in nanoseconds. -/
abbrev Instant := Nat

structure L1Entry (V : Type) where
  value : V
  expiresAt : Instant
  deriving DecidableEq

structure L1Cache (V : Type) where
  entries : DashMap Int (L1Entry V)
  maxEntries : Nat
  ttl : Duration

/-- What `L1Cache::get` sees while it holds the slot. -/
inductive L1Lookup (V : Type) where
  | absent
  | expired
  | live (value : V)
  deriving DecidableEq

def L1Lookup.isLive {V : Type} : L1Lookup V → Bool
  | .live _ => true
  | .absent | .expired => false

namespace L1Cache
variable {V : Type}

def new (maxEntries : Nat) (ttl : Duration) : L1Cache V := ⟨∅, max maxEntries 1, ttl⟩

def lookup (c : L1Cache V) (executorId : Int) (now : Instant) : L1Lookup V :=
  match c.entries.lookup executorId with
  | none => .absent
  | some entry => if entry.expiresAt ≤ now then .expired else .live entry.value

/-- `get_mut` followed by the assignment, when there is a slot to assign to. -/
def replace (c : L1Cache V) (executorId : Int) (entry : L1Entry V) : Bool × L1Cache V :=
  if executorId ∈ c.entries then
    (true, { c with entries := c.entries.replace executorId entry })
  else (false, c)

/-- The executor whose slot must give way to a new one. -/
def oldest (c : L1Cache V) : Option Int :=
  if c.maxEntries ≤ c.entries.len then c.entries.minByKey L1Entry.expiresAt else none

def remove (c : L1Cache V) (executorId : Int) : L1Cache V :=
  { c with entries := c.entries.erase executorId }

def insert (c : L1Cache V) (executorId : Int) (entry : L1Entry V) : L1Cache V :=
  { c with entries := c.entries.insert executorId entry }

variable {c : L1Cache V} {e executorId : Int} {entry new : L1Entry V}

theorem lookup_live {now : Instant} {v : V} (h : c.lookup executorId now = .live v) :
    ∃ entry, c.entries.lookup executorId = some entry ∧ now < entry.expiresAt ∧ entry.value = v := by
  unfold lookup at h
  split at h
  · cases h
  · next entry he =>
    split at h
    · cases h
    · next hn =>
      cases h
      exact ⟨entry, he, Nat.lt_of_not_le hn, rfl⟩

theorem lookup_of_remove (h : (c.remove executorId).entries.lookup e = some entry) :
    c.entries.lookup e = some entry ∧ e ≠ executorId := by
  refine ⟨DashMap.lookup_of_erase h, ?_⟩
  rintro rfl
  simp [remove] at h

theorem lookup_of_insert (h : (c.insert executorId new).entries.lookup e = some entry) :
    e = executorId ∧ entry = new ∨ c.entries.lookup e = some entry ∧ e ≠ executorId :=
  (DashMap.lookup_of_insert h).imp_right And.symm

theorem lookup_of_replace (h : (c.replace executorId new).2.entries.lookup e = some entry) :
    e = executorId ∧ entry = new ∧ (c.replace executorId new).1 = true ∨
      c.entries.lookup e = some entry ∧
        (e ≠ executorId ∨ (c.replace executorId new).1 = false) := by
  unfold replace at h ⊢
  split at h
  · next hm =>
    rw [DashMap.lookup_replace] at h
    obtain ⟨old, hold, hw⟩ := Option.map_eq_some_iff.mp h
    by_cases he : e = executorId
    · rw [if_pos he] at hw
      exact .inl ⟨he, hw.symm, by simp [hm]⟩
    · rw [if_neg he] at hw
      exact .inr ⟨hold.trans (congrArg some hw), .inl he⟩
  · next hm => exact .inr ⟨h, .inr (by simp [hm])⟩

end L1Cache
end RbatisCache
