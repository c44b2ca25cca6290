import Mathlib.Data.List.Induction

/-! A list of writes of which the last one counts, and what a fold over such a list leaves in a
field. -/
namespace RbatisCache
variable {α β γ σ : Type}

/-- What the last element that writes anything writes. -/
def lastWrite (write : α → Option β) (l : List α) : Option β := (l.filterMap write).getLast?

theorem lastWrite_of_never (l : List α) : lastWrite (fun _ => (none : Option β)) l = none := by
  rw [lastWrite, List.filterMap_eq_nil_iff.mpr fun _ _ => rfl]
  rfl

theorem lastWrite_concat (write : α → Option β) (l : List α) (a : α) :
    lastWrite write (l ++ [a]) = (write a).or (lastWrite write l) := by
  rw [lastWrite, List.filterMap_append, List.getLast?_append, lastWrite]
  cases h : write a with
  | none => rw [List.filterMap_cons_none h, List.filterMap_nil, List.getLast?_nil]
  | some b => rw [List.filterMap_cons_some h, List.filterMap_nil, List.getLast?_singleton]

/-- A field that every step overwrites or keeps holds the last write in the end. -/
theorem foldl_lastWrite {step : σ → α → σ} {field : σ → β} {write : α → Option β}
    (h : ∀ s a, field (step s a) = (write a).getD (field s)) (s : σ) (l : List α) :
    field (l.foldl step s) = (lastWrite write l).getD (field s) := by
  induction l using List.reverseRecOn with
  | nil => rfl
  | append_singleton l a ih =>
    rw [List.foldl_append, List.foldl_cons, List.foldl_nil, h, ih, lastWrite_concat]
    cases write a with
    | none => rfl
    | some b => rfl

/-- If the last write passes a filter, then it is also the last one that passes. -/
theorem lastWrite_bind {write : α → Option β} {read : β → Option γ} {l : List α} {b : β} {c : γ}
    (h : lastWrite write l = some b) (hb : read b = some c) :
    lastWrite (fun a => (write a).bind read) l = some c := by
  obtain ⟨before, hl⟩ := List.getLast?_eq_some_iff.mp h
  rw [lastWrite, ← List.filterMap_filterMap, hl, List.filterMap_append,
    List.filterMap_cons_some hb, List.filterMap_nil]
  exact List.getLast?_concat

theorem lastWrite_bind_none {write : α → Option β} {l : List α} (read : β → Option γ)
    (h : lastWrite write l = none) : lastWrite (fun a => (write a).bind read) l = none := by
  rw [lastWrite, ← List.filterMap_filterMap, List.getLast?_eq_none_iff.mp h]
  rfl

theorem lastWrite_map (write : α → Option β) (f : β → γ) (l : List α) :
    lastWrite (fun a => (write a).map f) l = (lastWrite write l).map f := by
  rw [lastWrite, lastWrite, ← List.getLast?_map, List.map_filterMap]

/-- Elements that write nothing do not matter. -/
theorem lastWrite_filter {write : α → Option β} {p : α → Bool}
    (h : ∀ a, p a = false → write a = none) (l : List α) :
    lastWrite write (l.filter p) = lastWrite write l := by
  rw [lastWrite, List.filterMap_filter]
  refine congrArg (fun f => (List.filterMap f l).getLast?) (funext fun a => ?_)
  cases hp : p a with
  | true => rfl
  | false => exact (h a hp).symm

/-! ### Writes under keys -/

/-- The writes of the key come in the same order in both lists. -/
def SameAt (key : α → γ) [DecidableEq γ] (k : γ) (l m : List α) : Prop :=
  (l.filter fun a => key a = k) = m.filter fun a => key a = k

instance (key : α → γ) [DecidableEq α] [DecidableEq γ] (k : γ) (l m : List α) :
    Decidable (SameAt key k l m) :=
  inferInstanceAs (Decidable (_ = _))

/-- The writes of every key come in the same order in both lists. -/
def SameByKey (key : α → γ) [DecidableEq γ] (l m : List α) : Prop := ∀ k, SameAt key k l m

section
variable [DecidableEq γ] {key : α → γ} {l m : List α}

/-- Neighbours of different keys may change places. -/
theorem SameByKey.swap {a b : α} (apart : key a ≠ key b) (l m : List α) :
    SameByKey key (l ++ a :: b :: m) (l ++ b :: a :: m) := by
  intro k
  simp only [SameAt, List.filter_append, List.filter_cons]
  by_cases ha : key a = k
  · have hb : key b ≠ k := fun h => apart (ha.trans h.symm)
    simp only [ha, hb, decide_true, decide_false, if_true, Bool.false_eq_true, if_false]
  · simp only [ha, decide_false, Bool.false_eq_true, if_false]

theorem SameAt.lastWrite_eq {k : γ} (h : SameAt key k l m) {write : α → Option β}
    (own : ∀ a, key a ≠ k → write a = none) : lastWrite write l = lastWrite write m := by
  have others : ∀ a, decide (key a = k) = false → write a = none := fun a ha =>
    own a (of_decide_eq_false ha)
  rw [← lastWrite_filter others l, ← lastWrite_filter others m]
  exact congrArg (lastWrite write) h

end
end RbatisCache
