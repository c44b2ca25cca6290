import Mathlib.Data.List.AList
import Mathlib.Data.List.MinMax

/-! Hash maps as association lists without repeated keys; the order of the list stands for the
iteration order of the map. -/
namespace RbatisCache

abbrev DashMap (κ ν : Type) := AList fun _ : κ => ν

namespace DashMap
variable {κ ν : Type}

/-- Keep the entries that satisfy a predicate. -/
def retain (p : κ → ν → Bool) (m : DashMap κ ν) : DashMap κ ν :=
  ⟨m.entries.filter fun e => p e.1 e.2, m.nodupKeys.sublist List.filter_sublist⟩

/-- Change every value in place. -/
def mapValues (f : ν → ν) (m : DashMap κ ν) : DashMap κ ν :=
  ⟨m.entries.map (.map id fun _ => f), m.nodupKeys.map₂ _ _⟩

def len (m : DashMap κ ν) : Nat := m.entries.length

/-- The first key, in iteration order, whose entry has the least measure. -/
def minByKey {β : Type} [LinearOrder β] (measure : ν → β) (m : DashMap κ ν) : Option κ :=
  (m.entries.argmin fun e => measure e.2).map (·.1)

theorem minByKey_eq_none {β : Type} [LinearOrder β] {measure : ν → β} {m : DashMap κ ν} :
    m.minByKey measure = none ↔ m.len = 0 := by
  rw [minByKey, Option.map_eq_none_iff, List.argmin_eq_none, len, List.length_eq_zero_iff]

theorem len_mapValues (f : ν → ν) (m : DashMap κ ν) : (m.mapValues f).len = m.len :=
  List.length_map _

theorem len_retain_le (p : κ → ν → Bool) (m : DashMap κ ν) : (m.retain p).len ≤ m.len :=
  List.length_filter_le _ _

theorem retain_retain (p q : κ → ν → Bool) (m : DashMap κ ν) :
    (m.retain p).retain q = m.retain fun k v => q k v && p k v := by
  apply AList.ext
  exact List.filter_filter

variable [DecidableEq κ]

theorem lookup_of_retain {p : κ → ν → Bool} {m : DashMap κ ν} {k : κ} {v : ν}
    (h : (m.retain p).lookup k = some v) : m.lookup k = some v :=
  List.sublist_dlookup m.nodupKeys List.filter_sublist h

theorem lookup_retain_of_absent {m : DashMap κ ν} {k : κ} (p : κ → ν → Bool) (h : m.lookup k = none) :
    (m.retain p).lookup k = none := by
  cases hv : (m.retain p).lookup k with
  | none => rfl
  | some v => exact (lookup_of_retain hv).symm.trans h

theorem lookup_retain {p : κ → ν → Bool} {m : DashMap κ ν} {k : κ} {v : ν}
    (h : m.lookup k = some v) (hp : p k v = true) : (m.retain p).lookup k = some v := by
  apply AList.mem_lookup_iff.mpr
  exact List.mem_filter.mpr ⟨AList.mem_lookup_iff.mp h, hp⟩

@[simp] theorem lookup_mapValues (f : ν → ν) (m : DashMap κ ν) (k : κ) :
    (m.mapValues f).lookup k = (m.lookup k).map f :=
  List.dlookup_map₂ k

theorem lookup_of_erase {m : DashMap κ ν} {k l : κ} {v : ν} (h : (m.erase l).lookup k = some v) :
    m.lookup k = some v := by
  by_cases hk : k = l
  · subst hk
    simp at h
  · rwa [AList.lookup_erase_ne hk] at h

/-- What is there after an insert has been inserted or was there before. -/
theorem lookup_of_insert {m : DashMap κ ν} {k l : κ} {v w : ν} (h : (m.insert l w).lookup k = some v) :
    k = l ∧ v = w ∨ k ≠ l ∧ m.lookup k = some v := by
  by_cases same : k = l
  · subst same
    rw [AList.lookup_insert, Option.some_inj] at h
    exact .inl ⟨rfl, h.symm⟩
  · rw [AList.lookup_insert_ne same] at h
    exact .inr ⟨same, h⟩

theorem lookup_insert_of_absent {m : DashMap κ ν} {k l : κ} {v : ν} (w : ν) (absent : m.lookup l = none)
    (h : m.lookup k = some v) : (m.insert l w).lookup k = some v := by
  have other : k ≠ l := by
    rintro rfl
    rw [h] at absent
    cases absent
  rw [AList.lookup_insert_ne other, h]

/-- The key of the least measure, and what it is compared with. -/
theorem minByKey_spec {β : Type} [LinearOrder β] {measure : ν → β} {m : DashMap κ ν} {k : κ}
    (h : m.minByKey measure = some k) : ∃ v, m.lookup k = some v ∧
      ∀ j w, m.lookup j = some w → measure v ≤ measure w := by
  obtain ⟨e, he, rfl⟩ := Option.map_eq_some_iff.mp h
  refine ⟨e.2, AList.mem_lookup_iff.mpr (List.argmin_mem he), fun j w hw => ?_⟩
  exact List.le_of_mem_argmin (f := fun e : Sigma fun _ : κ => ν => measure e.2)
    (AList.mem_lookup_iff.mp hw) he

private theorem argmin_map {α β γ : Type} [LinearOrder β] [LinearOrder γ] {f : α → α} {p : α → β}
    {q : α → γ} {l : List α} (same : ∀ a ∈ l, ∀ b ∈ l, (p (f a) < p (f b) ↔ q a < q b)) :
    (l.map f).argmin p = (l.argmin q).map f := by
  induction l with
  | nil => rfl
  | cons a l ih =>
    have rest := ih fun b hb c hc => same b (List.mem_cons_of_mem _ hb) c (List.mem_cons_of_mem _ hc)
    rw [List.map_cons, List.argmin_cons, List.argmin_cons, rest]
    cases hc : l.argmin q with
    | none => rfl
    | some c =>
      have member : c ∈ l := List.argmin_mem hc
      have order := same c (List.mem_cons_of_mem _ member) a List.mem_cons_self
      simp only [Option.map_some, order]
      split <;> rfl

/-- A change of the values that keeps their order keeps the least one. -/
theorem minByKey_mapValues {β γ : Type} [LinearOrder β] [LinearOrder γ] {f : ν → ν} {measure : ν → β}
    {measure' : ν → γ} {m : DashMap κ ν} (same : ∀ j v k w, m.lookup j = some v →
      m.lookup k = some w → (measure (f v) < measure (f w) ↔ measure' v < measure' w)) :
    (m.mapValues f).minByKey measure = m.minByKey measure' := by
  have least : (m.mapValues f).entries.argmin (fun e => measure e.2) =
      (m.entries.argmin fun e => measure' e.2).map (Sigma.map id fun _ => f) := by
    refine argmin_map fun a ha b hb => ?_
    exact same a.1 a.2 b.1 b.2 (AList.mem_lookup_iff.mpr ha) (AList.mem_lookup_iff.mpr hb)
  rw [minByKey, minByKey, least, Option.map_map]
  rfl

/-- An entry less. -/
theorem len_erase {m : DashMap κ ν} {k : κ} {v : ν} (h : m.lookup k = some v) :
    len (m.erase k) + 1 = m.len := by
  have present : k ∈ m.keys := AList.lookup_isSome.mp (Option.isSome_iff_exists.mpr ⟨v, h⟩)
  have keys : (m.erase k).keys.length + 1 = m.keys.length := by
    rw [AList.keys_erase, List.length_erase_of_mem present]
    exact Nat.succ_pred_eq_of_pos (List.length_pos_of_mem present)
  simpa [len, AList.keys, List.keys] using keys

theorem len_erase_le (m : DashMap κ ν) (k : κ) : len (m.erase k) ≤ m.len :=
  (List.kerase_sublist k m.entries).length_le

theorem len_replace (m : DashMap κ ν) (k : κ) (v : ν) : len (m.replace k v) = m.len := by
  have keys : (m.replace k v).keys.length = m.keys.length := congrArg List.length (m.keys_replace k v)
  simpa [len, AList.keys, List.keys] using keys

/-- At most an entry more. -/
theorem len_insert_le (m : DashMap κ ν) (k : κ) (v : ν) : len (m.insert k v) ≤ m.len + 1 :=
  Nat.succ_le_succ (m.len_erase_le k)

private theorem filter_kerase {es : List (Sigma fun _ : κ => ν)} (nodup : es.NodupKeys) (k : κ)
    (p : (Sigma fun _ : κ => ν) → Bool) : (es.kerase k).filter p = (es.filter p).kerase k := by
  induction es with
  | nil => rfl
  | cons e es ih =>
    obtain ⟨fresh, rest⟩ := List.nodupKeys_cons.mp nodup
    by_cases same : k = e.1
    · rw [List.kerase_cons_eq same]
      cases he : p e with
      | true => rw [List.filter_cons_of_pos he, List.kerase_cons_eq same]
      | false =>
        have gone : k ∉ (es.filter p).keys := by
          intro mem
          exact fresh (same ▸ (List.filter_sublist.map Sigma.fst).mem mem)
        rw [List.filter_cons_of_neg (by simp [he]), List.kerase_of_notMem_keys gone]
    · rw [List.kerase_cons_ne same]
      cases he : p e with
      | true =>
        rw [List.filter_cons_of_pos he, List.filter_cons_of_pos he, List.kerase_cons_ne same, ih rest]
      | false =>
        rw [List.filter_cons_of_neg (by simp [he]), List.filter_cons_of_neg (by simp [he]), ih rest]

theorem retain_erase (p : κ → ν → Bool) (m : DashMap κ ν) (k : κ) :
    retain p (m.erase k) = (m.retain p).erase k :=
  AList.ext (filter_kerase m.nodupKeys k _)

theorem erase_of_lookup_eq_none {m : DashMap κ ν} {k : κ} (h : m.lookup k = none) : m.erase k = m :=
  AList.ext (List.kerase_of_notMem_keys (List.dlookup_eq_none.mp h))

theorem lookup_retain_of_neg {p : κ → ν → Bool} {m : DashMap κ ν} {k : κ} {v : ν}
    (h : m.lookup k = some v) (hp : p k v = false) : (m.retain p).lookup k = none := by
  cases hw : (m.retain p).lookup k with
  | none => rfl
  | some w =>
    have holds := (List.mem_filter.mp (AList.mem_lookup_iff.mp hw)).2
    have same : v = w := Option.some_inj.mp (h.symm.trans (lookup_of_retain hw))
    subst same
    exact absurd (hp.symm.trans holds) Bool.false_ne_true

/-- What is not kept after an insertion need not be there before it. -/
theorem retain_insert (p : κ → ν → Bool) (m : DashMap κ ν) (k : κ) (v : ν) :
    retain p (m.insert k v) = retain p ((m.retain p).insert k v) := by
  have rest : (List.kerase k m.entries).filter (fun e => p e.1 e.2) =
      (List.kerase k (m.retain p).entries).filter fun e => p e.1 e.2 := by
    rw [filter_kerase m.nodupKeys, filter_kerase (m.retain p).nodupKeys]
    change _ = List.kerase k ((m.entries.filter fun e => p e.1 e.2).filter fun e => p e.1 e.2)
    simp only [List.filter_filter, Bool.and_self]
  apply AList.ext
  change (⟨k, v⟩ :: List.kerase k m.entries).filter (fun e => p e.1 e.2) =
    (⟨k, v⟩ :: List.kerase k (m.retain p).entries).filter fun e => p e.1 e.2
  rw [List.filter_cons, List.filter_cons, rest]

theorem eq_empty_of_lookup {m : DashMap κ ν} (h : ∀ k, m.lookup k = none) : m = ∅ := by
  apply AList.ext
  cases he : m.entries with
  | nil => rfl
  | cons e es =>
    have hk := h e.1
    rw [AList.lookup, he, List.dlookup_cons_eq] at hk
    cases hk

private theorem dlookup_kreplace (k l : κ) (v : ν) (es : List (Sigma fun _ : κ => ν)) :
    (es.kreplace l v).dlookup k = (es.dlookup k).map fun w => if k = l then v else w := by
  induction es with
  | nil => rfl
  | cons e es ih =>
    by_cases hl : l = e.1
    · have h : (e :: es).kreplace l v = ⟨l, v⟩ :: es :=
        List.lookmap_cons_some _ _ (if_pos hl)
      rw [h]
      by_cases hk : k = l
      · subst hk
        obtain ⟨e1, e2⟩ := e
        obtain rfl : k = e1 := hl
        simp
      · rw [List.dlookup_cons_ne _ _ hk, List.dlookup_cons_ne _ _ (hl ▸ hk)]
        simp [hk]
    · have h : (e :: es).kreplace l v = e :: es.kreplace l v :=
        List.lookmap_cons_none _ _ (if_neg hl)
      rw [h]
      by_cases hk : k = e.1
      · obtain ⟨e1, e2⟩ := e
        obtain rfl : k = e1 := hk
        simp [Ne.symm hl]
      · rw [List.dlookup_cons_ne _ _ hk, List.dlookup_cons_ne _ _ hk, ih]

/-- `replace` changes the value of a key that is present and nothing else. -/
theorem lookup_replace (k l : κ) (v : ν) (m : DashMap κ ν) :
    (m.replace l v).lookup k = (m.lookup k).map fun w => if k = l then v else w :=
  dlookup_kreplace k l v m.entries

private theorem filter_kreplace {es : List (Sigma fun _ : κ => ν)} {k : κ} {v w : ν}
    {p : (Sigma fun _ : κ => ν) → Bool} (found : es.dlookup k = some v) (hv : p ⟨k, v⟩ = true)
    (hw : p ⟨k, w⟩ = true) : (es.kreplace k w).filter p = (es.filter p).kreplace k w := by
  induction es with
  | nil => rfl
  | cons e es ih =>
    by_cases same : k = e.1
    · obtain ⟨e1, e2⟩ := e
      obtain rfl : k = e1 := same
      rw [List.dlookup_cons_eq, Option.some_inj] at found
      subst found
      have head (rest : List (Sigma fun _ : κ => ν)) :
          (⟨k, e2⟩ :: rest).kreplace k w = ⟨k, w⟩ :: rest :=
        List.lookmap_cons_some _ _ (if_pos rfl)
      rw [head, List.filter_cons_of_pos hv, List.filter_cons_of_pos hw, head]
    · have head (rest : List (Sigma fun _ : κ => ν)) : (e :: rest).kreplace k w = e :: rest.kreplace k w :=
        List.lookmap_cons_none _ _ (if_neg same)
      rw [List.dlookup_cons_ne _ _ same] at found
      rw [head]
      cases he : p e with
      | true =>
        rw [List.filter_cons_of_pos he, List.filter_cons_of_pos he, head, ih found]
      | false =>
        rw [List.filter_cons_of_neg (by simp [he]), List.filter_cons_of_neg (by simp [he]), ih found]

theorem retain_replace {p : κ → ν → Bool} {m : DashMap κ ν} {k : κ} {v w : ν}
    (found : m.lookup k = some v) (hv : p k v = true) (hw : p k w = true) :
    retain p (m.replace k w) = (m.retain p).replace k w :=
  AList.ext (filter_kreplace (p := fun e => p e.1 e.2) found hv hw)

end DashMap
end RbatisCache
