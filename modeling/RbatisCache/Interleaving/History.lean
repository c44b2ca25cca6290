import Mathlib.Data.List.Infix
import Mathlib.Data.Sigma.Basic

/-! Histories of atomic operations, newest first, and the order of events in them. -/
namespace RbatisCache.Interleaving

/-- One operation that a task has performed, with its result. -/
structure Event (T Op : Type) (Res : Op → Type) where
  task : T
  op : Op
  result : Res op

instance {T Op : Type} {Res : Op → Type} [DecidableEq T] [DecidableEq Op]
    [∀ op, DecidableEq (Res op)] : DecidableEq (Event T Op Res) := fun a b =>
  decidable_of_iff (a.task = b.task ∧ (⟨a.op, a.result⟩ : Sigma Res) = ⟨b.op, b.result⟩) <| by
    cases a
    cases b
    simp

/-- The newest event is the head. -/
abbrev History (T Op : Type) (Res : Op → Type) := List (Event T Op Res)

namespace History
variable {T Op : Type} {Res : Op → Type}

/-- Event `a` happened before event `b`. -/
def Precedes (h : History T Op Res) (a b : Event T Op Res) : Prop := ∃ s, b :: s <:+ h ∧ a ∈ s

/-- Every event had the property when it happened, relative to the history so far. -/
def Always (P : Event T Op Res → History T Op Res → Prop) (h : History T Op Res) : Prop :=
  ∀ e s, e :: s <:+ h → P e s

section
variable {P : Event T Op Res → History T Op Res → Prop} {e a b : Event T Op Res}
variable {g h s : History T Op Res}

theorem always_nil : Always P [] := by
  intro e s hs
  simp at hs

theorem Always.cons (hh : Always P h) (he : P e h) : Always P (e :: h) := by
  intro f s hs
  rcases List.suffix_cons_iff.mp hs with hs | hs
  · cases hs
    exact he
  · exact hh f s hs

theorem always_cons : Always P (e :: h) ↔ P e h ∧ Always P h :=
  ⟨fun hh => ⟨hh e h (List.suffix_refl _), fun f s hs => hh f s (hs.trans (List.suffix_cons _ _))⟩,
    fun hh => hh.2.cons hh.1⟩

instance instDecidableAlways [∀ e s, Decidable (P e s)] : ∀ h, Decidable (Always P h)
  | [] => .isTrue always_nil
  | e :: h =>
    have := instDecidableAlways h
    decidable_of_iff (P e h ∧ Always P h) always_cons.symm

theorem Always.suffix (hh : Always P h) (hs : s <:+ h) : Always P s :=
  fun e r hr => hh e r (hr.trans hs)

theorem Precedes.suffix (hp : s.Precedes a b) (hs : s <:+ h) : h.Precedes a b := by
  obtain ⟨r, hr, ha⟩ := hp
  exact ⟨r, hr.trans hs, ha⟩

theorem precedes_cons : Precedes (e :: h) a b ↔ (e = b ∧ a ∈ h) ∨ h.Precedes a b := by
  constructor
  · rintro ⟨s, hs, ha⟩
    rcases List.suffix_cons_iff.mp hs with hs | hs
    · cases hs
      exact .inl ⟨rfl, ha⟩
    · exact .inr ⟨s, hs, ha⟩
  · rintro (⟨rfl, ha⟩ | hp)
    · exact ⟨h, List.suffix_refl _, ha⟩
    · exact hp.suffix (List.suffix_cons _ _)

instance instDecidablePrecedes [DecidableEq (Event T Op Res)] (a b : Event T Op Res) :
    ∀ h : History T Op Res, Decidable (Precedes h a b)
  | [] => .isFalse fun ⟨_, hs, _⟩ => by simp at hs
  | e :: h =>
    have := instDecidablePrecedes a b h
    decidable_of_iff ((e = b ∧ a ∈ h) ∨ Precedes h a b) precedes_cons.symm

theorem exists_suffix_of_mem (he : e ∈ h) : ∃ s, e :: s <:+ h := by
  obtain ⟨l, s, rfl⟩ := List.append_of_mem he
  exact ⟨s, List.suffix_append _ _⟩

theorem exists_suffix_of_head? (he : h.head? = some e) : ∃ s, e :: s <:+ h := by
  obtain ⟨s, rfl⟩ := List.head?_eq_some_iff.mp he
  exact ⟨s, List.suffix_refl _⟩

theorem suffix_of_head? (he : h.head? = some e) : e :: h.tail <:+ h := by
  obtain ⟨s, rfl⟩ := List.head?_eq_some_iff.mp he
  exact List.suffix_refl _

/-- Of two moments of one history, one in which no fewer events satisfy `p` has seen all such
events of the other. -/
theorem mem_of_countP_le {p : Event T Op Res → Bool} (hg : g <:+ h) (hs : s <:+ h)
    (hc : g.countP p ≤ s.countP p) (he : e ∈ g) (hp : p e = true) : e ∈ s := by
  rcases List.suffix_or_suffix_of_suffix hg hs with hgs | hsg
  · exact hgs.subset he
  · obtain ⟨l, rfl⟩ := hsg
    rw [List.countP_append] at hc
    have hl : l.countP p = 0 := by omega
    rcases List.mem_append.mp he with hel | hes
    · exact absurd hp (List.countP_eq_zero.mp hl e hel)
    · exact hes

end

section
variable [DecidableEq T] {t : T} {e : Event T Op Res} {h s : History T Op Res}

/-- What one task has done so far. -/
def own (h : History T Op Res) (t : T) : List (Sigma Res) :=
  h.filterMap fun e => if e.task = t then some ⟨e.op, e.result⟩ else none

@[simp] theorem own_nil : own ([] : History T Op Res) t = [] := rfl

@[simp] theorem own_cons_self (op : Op) (r : Res op) :
    own (⟨t, op, r⟩ :: h) t = ⟨op, r⟩ :: own h t := by
  simp [own]

theorem own_cons_ne (hne : e.task ≠ t) : own (e :: h) t = own h t := by
  simp [own, hne]

theorem own_append (g : History T Op Res) : own (g ++ h) t = own g t ++ own h t :=
  List.filterMap_append

theorem own_suffix (hs : s <:+ h) : own s t <:+ own h t := by
  obtain ⟨g, rfl⟩ := hs
  rw [own_append]
  exact List.suffix_append _ _

theorem mem_own {op : Op} {r : Res op} : ⟨op, r⟩ ∈ own h t ↔ ⟨t, op, r⟩ ∈ h := by
  simp only [own, List.mem_filterMap]
  constructor
  · rintro ⟨⟨s, o, q⟩, he, hs⟩
    split at hs
    · next ht =>
      cases ht
      cases hs
      exact he
    · cases hs
  · exact fun he => ⟨_, he, by simp⟩

/-- An operation that a task has performed was performed at some moment of the history. -/
theorem exists_suffix_of_mem_own {op : Op} {r : Res op} (he : ⟨op, r⟩ ∈ own h t) :
    ∃ s, ⟨t, op, r⟩ :: s <:+ h :=
  exists_suffix_of_mem (mem_own.mp he)

/-- The moment at which a task performed one of its operations. -/
theorem exists_suffix_of_own {op : Op} {r : Res op} {after before : List (Sigma Res)}
    (ho : own h t = after ++ ⟨op, r⟩ :: before) :
    ∃ s, ⟨t, op, r⟩ :: s <:+ h ∧ own s t = before := by
  induction h generalizing after with
  | nil => simp at ho
  | cons e h ih =>
    by_cases he : e.task = t
    · obtain ⟨et, eop, er⟩ := e
      obtain rfl : et = t := he
      rw [own_cons_self] at ho
      cases after with
      | nil =>
        cases ho
        exact ⟨h, List.suffix_refl _, rfl⟩
      | cons a after =>
        obtain ⟨s, hs, hb⟩ := ih (List.cons.inj ho).2
        exact ⟨s, hs.trans (List.suffix_cons _ _), hb⟩
    · rw [own_cons_ne he] at ho
      obtain ⟨s, hs, hb⟩ := ih ho
      exact ⟨s, hs.trans (List.suffix_cons _ _), hb⟩

/-- The moment at which a task had done no more than the older part of what it has done. -/
theorem exists_append_of_own {newer older : List (Sigma Res)} (ho : own h t = newer ++ older) :
    ∃ later s, h = later ++ s ∧ own later t = newer ∧ own s t = older := by
  induction h generalizing newer with
  | nil =>
    obtain ⟨rfl, rfl⟩ := List.append_eq_nil_iff.mp ho.symm
    exact ⟨[], [], rfl, rfl, rfl⟩
  | cons e h ih =>
    by_cases he : e.task = t
    · obtain ⟨et, eop, er⟩ := e
      obtain rfl : et = t := he
      rw [own_cons_self] at ho
      cases newer with
      | nil => exact ⟨[], _, rfl, rfl, (own_cons_self eop er).trans ho⟩
      | cons a newer =>
        obtain ⟨rfl, rest⟩ := List.cons.inj ho
        obtain ⟨later, s, rfl, rfl, rfl⟩ := ih rest
        exact ⟨_ :: later, s, rfl, own_cons_self eop er, rfl⟩
    · rw [own_cons_ne he] at ho
      obtain ⟨later, s, rfl, rfl, rfl⟩ := ih ho
      exact ⟨e :: later, s, rfl, own_cons_ne he, rfl⟩

end
end History
end RbatisCache.Interleaving
