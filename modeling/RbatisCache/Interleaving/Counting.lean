import Mathlib.Algebra.BigOperators.Ring.Finset
import RbatisCache.Interleaving.History

/-! Counters as a history shows them: some events count, some report how many there have been. -/
namespace RbatisCache.Interleaving

theorem countP_cons_toNat {α : Type} (p : α → Bool) (a : α) (l : List α) :
    (a :: l).countP p = l.countP p + (p a).toNat := by
  rw [List.countP_cons]
  cases p a <;> rfl

namespace History
variable {T Op : Type} {Res : Op → Type}

/-- Events that report a number count themselves and report how many have counted so far. -/
def Numbers (counts : Event T Op Res → Bool) (reports : Event T Op Res → Nat → Prop)
    (h : History T Op Res) : Prop :=
  h.Always fun e s => ∀ n, reports e n → counts e = true ∧ n = s.countP counts + 1

/-- Events that see a number do not change it. -/
def Observes (counts : Event T Op Res → Bool) (sees : Event T Op Res → Nat → Prop)
    (h : History T Op Res) : Prop :=
  h.Always fun e s => ∀ n, sees e n → n = s.countP counts

section
variable {counts : Event T Op Res → Bool} {reports sees : Event T Op Res → Nat → Prop}
variable {a b e : Event T Op Res} {h s q : History T Op Res} {m n : Nat}

/-- There is one moment for each number. -/
theorem moment_unique (ha : a :: s <:+ h) (hb : b :: q <:+ h) (counted : counts a = true)
    (counted' : counts b = true) (same : s.countP counts = q.countP counts) : a = b ∧ s = q := by
  rcases List.suffix_or_suffix_of_suffix ha hb with hab | hba
  · rcases List.suffix_cons_iff.mp hab with eq | later
    · exact List.cons.inj eq
    · have le := later.sublist.countP_le (p := counts)
      rw [List.countP_cons_of_pos counted] at le
      omega
  · rcases List.suffix_cons_iff.mp hba with eq | later
    · obtain ⟨rfl, rfl⟩ := List.cons.inj eq
      exact ⟨rfl, rfl⟩
    · have le := later.sublist.countP_le (p := counts)
      rw [List.countP_cons_of_pos counted'] at le
      omega

/-- There is a moment for each number. -/
theorem exists_moment (positive : 1 ≤ n) (le : n ≤ h.countP counts) :
    ∃ e s, e :: s <:+ h ∧ counts e = true ∧ n = s.countP counts + 1 := by
  induction h with
  | nil =>
    rw [List.countP_nil] at le
    omega
  | cons e h ih =>
    by_cases within : n ≤ h.countP counts
    · obtain ⟨f, s, hs, rest⟩ := ih within
      exact ⟨f, s, hs.trans (List.suffix_cons _ _), rest⟩
    · by_cases counted : counts e = true
      · rw [List.countP_cons_of_pos counted] at le
        exact ⟨e, h, List.suffix_refl _, counted, by omega⟩
      · rw [List.countP_cons_of_neg counted] at le
        exact absurd le within

theorem Numbers.unique (numbers : Numbers counts reports h) (ha : a ∈ h) (hb : b ∈ h)
    (ra : reports a n) (rb : reports b n) : a = b := by
  obtain ⟨s, hs⟩ := exists_suffix_of_mem ha
  obtain ⟨q, hq⟩ := exists_suffix_of_mem hb
  obtain ⟨counted, number⟩ := numbers _ _ hs n ra
  obtain ⟨counted', number'⟩ := numbers _ _ hq n rb
  exact (moment_unique hs hq counted counted' (by omega)).1

theorem Numbers.bounds (numbers : Numbers counts reports h) (ha : a ∈ h) (ra : reports a n) :
    1 ≤ n ∧ n ≤ h.countP counts := by
  obtain ⟨s, hs⟩ := exists_suffix_of_mem ha
  obtain ⟨counted, number⟩ := numbers _ _ hs n ra
  have le := hs.sublist.countP_le (p := counts)
  rw [List.countP_cons_of_pos counted] at le
  omega

theorem Numbers.lt_of_precedes (numbers : Numbers counts reports h) (order : h.Precedes a b)
    (ra : reports a m) (rb : reports b n) : m < n := by
  obtain ⟨s, hs, ha⟩ := order
  have number := (numbers _ _ hs n rb).2
  have before := (Numbers.bounds (Always.suffix numbers ((List.suffix_cons _ _).trans hs)) ha ra).2
  omega

/-- Numbers that are seen never go down. -/
theorem Observes.le_of_precedes (observes : Observes counts sees h) (order : h.Precedes a b)
    (sa : sees a m) (sb : sees b n) : m ≤ n := by
  obtain ⟨s, hs, ha⟩ := order
  obtain ⟨q, hq⟩ := exists_suffix_of_mem ha
  have later := observes _ _ hs n sb
  have earlier := observes _ _ (hq.trans ((List.suffix_cons _ _).trans hs)) m sa
  have le := ((List.suffix_cons _ _).trans hq).sublist.countP_le (p := counts)
  omega

end

/-- A history counts what its tasks count, each in its own way. -/
theorem countP_task_eq_sum_own [DecidableEq T] [Fintype T] (p : T → Sigma Res → Bool)
    (h : History T Op Res) :
    h.countP (fun e => p e.task ⟨e.op, e.result⟩) = ∑ t, (h.own t).countP (p t) := by
  induction h with
  | nil => simp
  | cons e h ih =>
    obtain ⟨s, op, r⟩ := e
    have grown (t : T) : (own (⟨s, op, r⟩ :: h) t).countP (p t) =
        (own h t).countP (p t) + if t = s then if p s ⟨op, r⟩ then 1 else 0 else 0 := by
      by_cases same : t = s
      · subst same
        rw [own_cons_self, List.countP_cons, if_pos rfl]
      · rw [own_cons_ne (Ne.symm same), if_neg same]
        rfl
    rw [List.countP_cons, ih, Finset.sum_congr rfl fun t _ => grown t, Finset.sum_add_distrib,
      Finset.sum_ite_eq' Finset.univ s, if_pos (Finset.mem_univ s)]

/-- A history counts what its tasks count. -/
theorem countP_eq_sum_own [DecidableEq T] [Fintype T] (p : Sigma Res → Bool)
    (h : History T Op Res) :
    h.countP (fun e => p ⟨e.op, e.result⟩) = ∑ t, (h.own t).countP p :=
  countP_task_eq_sum_own (fun _ => p) h

end History
end RbatisCache.Interleaving
