import Mathlib.Data.List.Basic

/-! Ordered maps. `firstWhere` is the entry of the least key with a property, so that
`range(key..).next()` and `first_key_value()` are two of its cases. -/
namespace RbatisCache

abbrev BTreeMap (κ ν : Type) [Ord κ] := Std.TreeMap κ ν

namespace BTreeMap
variable {κ ν : Type} [Ord κ]

def firstWhere (p : κ → Bool) (m : BTreeMap κ ν) : Option (κ × ν) :=
  m.toList.find? fun e => p e.1

/-- `range(key..).next()` -/
def ceiling (m : BTreeMap κ ν) (key : κ) : Option (κ × ν) :=
  m.firstWhere fun k => (compare key k).isLE

def firstKeyValue (m : BTreeMap κ ν) : Option (κ × ν) := m.firstWhere fun _ => true

variable [Std.TransOrd κ] [Std.LawfulEqOrd κ] {m n : BTreeMap κ ν} {p : κ → Bool} {k l : κ}
  {v w : ν}

theorem firstWhere_eq_none : m.firstWhere p = none ↔ ∀ (k : κ) (v : ν), m[k]? = some v → p k = false := by
  rw [firstWhere, List.find?_eq_none]
  constructor
  · intro h k v hk
    exact Bool.eq_false_iff.mpr (h _ (Std.TreeMap.mem_toList_iff_getElem?_eq_some.mpr hk))
  · rintro h ⟨k, v⟩ hmem
    exact Bool.eq_false_iff.mp (h k v (Std.TreeMap.mem_toList_iff_getElem?_eq_some.mp hmem))

/-- The entry found is one of the map's, and no other key with the property is below it. -/
theorem firstWhere_eq_some : m.firstWhere p = some (k, v) ↔
    m[k]? = some v ∧ p k = true ∧ ∀ (l : κ) (w : ν), m[l]? = some w → p l = true → (compare k l).isLE := by
  have ordered := Std.TreeMap.ordered_keys_toList (t := m)
  rw [firstWhere, List.find?_eq_some_iff_append]
  constructor
  · rintro ⟨hp, as, bs, hlist, below⟩
    rw [hlist] at ordered
    refine ⟨Std.TreeMap.mem_toList_iff_getElem?_eq_some.mp (by simp [hlist]), hp, ?_⟩
    intro l w hl hpl
    have hmem := Std.TreeMap.mem_toList_iff_getElem?_eq_some.mpr hl
    rw [hlist, List.mem_append, List.mem_cons] at hmem
    rcases hmem with hmem | heq | hmem
    · have := below _ hmem
      simp [hpl] at this
    · cases heq
      exact Std.ReflOrd.isLE_rfl
    · have hlt := (List.pairwise_append.mp ordered).2.1
      have : compare k l = .lt := List.rel_of_pairwise_cons hlt hmem
      rw [this]
      rfl
  · rintro ⟨hk, hp, least⟩
    have hmem := Std.TreeMap.mem_toList_iff_getElem?_eq_some.mpr hk
    obtain ⟨as, bs, hlist⟩ := List.append_of_mem hmem
    refine ⟨hp, as, bs, hlist, ?_⟩
    rintro ⟨l, w⟩ ha
    rw [hlist] at ordered
    have hlt : compare l k = .lt :=
      (List.pairwise_append.mp ordered).2.2 _ ha _ List.mem_cons_self
    have hl : m[l]? = some w :=
      Std.TreeMap.mem_toList_iff_getElem?_eq_some.mp (by simp [hlist, ha])
    cases hpl : p l with
    | false => rfl
    | true =>
      -- a key with the property below the entry would have been found first
      have hle := least l w hl hpl
      rw [Std.OrientedOrd.eq_swap, hlt] at hle
      cases hle

/-! ### Maps that grow by one value -/

/-- The map `n` holds every key of `m`, and where the two differ it holds `new`. -/
structure Extends (m n : BTreeMap κ ν) (new : ν) : Prop where
  kept : ∀ {k : κ} {v : ν}, m[k]? = some v → n[k]? = some v ∨ n[k]? = some new
  found : ∀ {k : κ} {v : ν}, n[k]? = some v → m[k]? = some v ∨ v = new

variable {new : ν}

omit [Std.TransOrd κ] [Std.LawfulEqOrd κ] in
theorem Extends.refl (m : BTreeMap κ ν) (new : ν) : Extends m m new := ⟨.inl, .inl⟩

omit [Std.LawfulEqOrd κ] in
theorem Extends.insert (h : Extends m n new) (l : κ) : Extends m (n.insert l new) new where
  kept := by
    intro k v hk
    rw [Std.TreeMap.getElem?_insert]
    split
    · exact .inr rfl
    · exact h.kept hk
  found := by
    intro k v hk
    rw [Std.TreeMap.getElem?_insert] at hk
    split at hk
    · exact .inr (Option.some.inj hk).symm
    · exact h.found hk

/-- A key the larger map lacks is lacked by the smaller one too. -/
theorem Extends.firstWhere_eq_none (h : Extends m n new) (hn : n.firstWhere p = none) :
    m.firstWhere p = none := by
  rw [BTreeMap.firstWhere_eq_none] at hn ⊢
  intro k v hk
  rcases h.kept hk with hv | hv
  · exact hn k v hv
  · exact hn k new hv

/-- What is found in the larger map is the new value or what is found in the smaller one. -/
theorem Extends.firstWhere_eq_some (h : Extends m n new) (hn : n.firstWhere p = some (k, v)) :
    v = new ∨ m.firstWhere p = some (k, v) := by
  rw [BTreeMap.firstWhere_eq_some] at hn
  obtain ⟨hk, hp, least⟩ := hn
  rcases h.found hk with hm | hv
  · refine .inr (BTreeMap.firstWhere_eq_some.mpr ⟨hm, hp, ?_⟩)
    intro l w hl
    rcases h.kept hl with hw | hw
    · exact least l w hw
    · exact least l new hw
  · exact .inl hv

end BTreeMap
end RbatisCache
