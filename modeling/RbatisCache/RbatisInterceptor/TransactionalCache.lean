import Mathlib.Data.List.AList
import RbatisCache.Collections.DashMap
import RbatisCache.Spi.Key

/-! The buffer of one transaction (`transactional.rs`). -/
namespace RbatisCache

structure TransactionalCacheBuffer (V : Type) where
  pendingAdd : DashMap String (CacheKey × V)
  clearNamespaces : DashMap String Unit
  ttl : Duration
  /-- Entries are filed under the digest of their key. -/
  keyed : ∀ d e, pendingAdd.lookup d = some e → e.1.digest = d

namespace TransactionalCacheBuffer
variable {V : Type}

private theorem ext_data {a b : TransactionalCacheBuffer V} (hp : a.pendingAdd = b.pendingAdd)
    (hc : a.clearNamespaces = b.clearNamespaces) (ht : a.ttl = b.ttl) : a = b := by
  cases a
  cases b
  obtain rfl := hp
  obtain rfl := hc
  obtain rfl := ht
  rfl

instance [DecidableEq V] : DecidableEq (TransactionalCacheBuffer V) := fun a b =>
  decidable_of_iff (a.pendingAdd.entries = b.pendingAdd.entries ∧
      a.clearNamespaces.entries = b.clearNamespaces.entries ∧ a.ttl = b.ttl) <| by
    constructor
    · rintro ⟨hp, hc, ht⟩
      exact ext_data (AList.ext hp) (AList.ext hc) ht
    · rintro rfl
      exact ⟨rfl, rfl, rfl⟩

def new (ttl : Duration) : TransactionalCacheBuffer V :=
  ⟨∅, ∅, ttl, fun d e h => by simp at h⟩

def put (b : TransactionalCacheBuffer V) (key : CacheKey) (value : V) :
    TransactionalCacheBuffer V where
  pendingAdd := b.pendingAdd.insert key.digest (key, value)
  clearNamespaces := b.clearNamespaces
  ttl := b.ttl
  keyed := by
    intro d e h
    by_cases hd : d = key.digest
    · subst hd
      rw [AList.lookup_insert] at h
      rw [← Option.some.inj h]
    · rw [AList.lookup_insert_ne hd] at h
      exact b.keyed d e h

def pendingGet (b : TransactionalCacheBuffer V) (digest : String) : Option V :=
  (b.pendingAdd.lookup digest).map (·.2)

def clearNamespace (b : TransactionalCacheBuffer V) (nameSpace : String) :
    TransactionalCacheBuffer V :=
  { b with clearNamespaces := b.clearNamespaces.insert nameSpace () }

/-- The entries in the order in which they are flushed. -/
def entries (b : TransactionalCacheBuffer V) : List (CacheKey × V) :=
  b.pendingAdd.entries.map (·.2)

/-- The marked namespaces in the order in which they are bumped. -/
def nameSpaces (b : TransactionalCacheBuffer V) : List String :=
  b.clearNamespaces.entries.map (·.1)

/-- An entry with its key. -/
def Holds (b : TransactionalCacheBuffer V) (key : CacheKey) (value : V) : Prop :=
  b.pendingAdd.lookup key.digest = some (key, value)

variable {b : TransactionalCacheBuffer V} {key : CacheKey} {value : V}

theorem holds_of_mem_entries (h : (key, value) ∈ b.entries) : b.Holds key value := by
  obtain ⟨⟨d, e⟩, hm, he⟩ := List.mem_map.mp h
  obtain rfl : e = (key, value) := he
  have hl : b.pendingAdd.lookup d = some (key, value) := AList.mem_lookup_iff.mpr hm
  have hd : key.digest = d := b.keyed d _ hl
  rwa [← hd] at hl

theorem holds_of_pendingGet {digest : String} (h : b.pendingGet digest = some value) :
    ∃ key, key.digest = digest ∧ b.Holds key value := by
  obtain ⟨⟨key, v⟩, hl, rfl⟩ := Option.map_eq_some_iff.mp h
  have hd : key.digest = digest := b.keyed digest _ hl
  exact ⟨key, hd, by rwa [Holds, hd]⟩

theorem holds_of_put {k : CacheKey} {v : V} (h : (b.put key value).Holds k v) :
    k = key ∧ v = value ∨ b.Holds k v := by
  have held : (b.pendingAdd.insert key.digest (key, value)).lookup k.digest = some (k, v) := h
  rcases DashMap.lookup_of_insert held with ⟨-, new⟩ | ⟨-, old⟩
  · cases new
    exact .inl ⟨rfl, rfl⟩
  · exact .inr old

@[simp] theorem nameSpaces_new (ttl : Duration) :
    (new ttl : TransactionalCacheBuffer V).nameSpaces = [] := rfl

@[simp] theorem nameSpaces_put : (b.put key value).nameSpaces = b.nameSpaces := rfl

theorem mem_nameSpaces_clearNamespace {m n : String} :
    n ∈ (b.clearNamespace m).nameSpaces ↔ n = m ∨ n ∈ b.nameSpaces :=
  AList.mem_insert b.clearNamespaces

theorem nodup_nameSpaces : b.nameSpaces.Nodup := b.clearNamespaces.keys_nodup

theorem not_holds_new {ttl : Duration} : ¬ (new ttl : TransactionalCacheBuffer V).Holds key value := by
  simp [Holds, new]

end TransactionalCacheBuffer
end RbatisCache
