import Mathlib.Algebra.BigOperators.Group.Finset.Basic
import Mathlib.Algebra.Order.BigOperators.Group.Finset
import Mathlib.Data.Fintype.Basic
import RbatisCache.Interleaving.Program

/-! Families of programs that always come to an end. -/
namespace RbatisCache.Interleaving

namespace Prog
variable {Op : Type} {Res : Op → Type} {α β : Type} {m n : Nat}

theorem Bounded.mono {p : Prog Op Res α} (h : p.Bounded m) (hmn : m ≤ n) : p.Bounded n := by
  induction h generalizing n with
  | ret m a => exact .ret n a
  | @call m op next _ ih =>
    cases n with
    | zero => omega
    | succ n => exact .call fun r => ih r (by omega)

theorem Bounded.bind {p : Prog Op Res α} {f : α → Prog Op Res β} (h : p.Bounded m)
    (hf : ∀ a, (f a).Bounded n) : (p.bind f).Bounded (m + n) := by
  induction h with
  | ret m a => exact (hf a).mono (by omega)
  | @call m op next _ ih =>
    rw [show m + 1 + n = m + n + 1 by omega]
    exact .call ih

end Prog

section
variable {T Op : Type} {Res : Op → Type} {C W α : Type} [DecidableEq T]
variable {M : Machine T Op Res C W} {A : Restriction T Op Res C W}

/-- A bounded program has performed no more operations than its bound. -/
theorem Reaches.own_length {c d : Config T Op Res W α} (h : Reaches M A c d) {t : T} {n : Nat}
    (hb : (c.tasks t).Bounded n) : ∃ left, (d.tasks t).Bounded left ∧
      (d.history.own t).length + left ≤ (c.history.own t).length + n := by
  induction h with
  | refl => exact ⟨n, hb, le_rfl⟩
  | tail _ hs ih =>
    obtain ⟨left, hleft, hle⟩ := ih
    obtain @⟨s, ch, op, next, r, w, hp, _, _⟩ := hs
    by_cases ht : s = t
    · subst ht
      rw [hp] at hleft
      cases hleft with
      | @call m _ _ hnext =>
        refine ⟨m, by simpa using hnext r, ?_⟩
        rw [History.own_cons_self, List.length_cons]
        omega
    · refine ⟨left, by simpa [Function.update_of_ne (Ne.symm ht)] using hleft, ?_⟩
      rw [History.own_cons_ne ht]
      exact hle

/-- Some task can perform its next operation, whatever the environment. -/
def Config.Enabled (M : Machine T Op Res C W) (c : Config T Op Res W α) : Prop :=
  ∃ t op next, c.tasks t = .call op next ∧ ∀ ch, (M.perform t op ch c.world).isSome

def Config.Finished (c : Config T Op Res W α) : Prop := ∀ t, ∃ a, c.tasks t = .ret a

instance [Fintype T] (c : Config T Op Res W α) : Decidable c.Finished :=
  decidable_of_iff (∀ t, (c.returned t).isSome) <| forall_congr' fun t => by
    simp [Option.isSome_iff_exists, Config.returned_eq_some]

/-- Every run leads to `Goal`, however it is scheduled: it neither gets stuck nor goes on
forever before. -/
inductive Inevitable (M : Machine T Op Res C W) (A : Restriction T Op Res C W)
    (Goal : Config T Op Res W α → Prop) : Config T Op Res W α → Prop
  | now {c : Config T Op Res W α} : Goal c → Inevitable M A Goal c
  | later {c : Config T Op Res W α} : c.Enabled M →
      (∀ d, Step M A c d → Inevitable M A Goal d) → Inevitable M A Goal c

/-- Bounded programs that cannot deadlock all return, in every run that keeps an invariant. -/
theorem inevitable_of_bounded [Fintype T] {Goal : Config T Op Res W α → Prop}
    (I : Config T Op Res W α → Prop) (bound : T → Nat)
    (hstep : ∀ c d, I c → Step M A c d → I d)
    (hlive : ∀ c, I c → ¬ c.Finished → c.Enabled M)
    (hgoal : ∀ c, I c → c.Finished → Goal c) {c : Config T Op Res W α} (hc : I c)
    (hb : ∀ t, (c.tasks t).Bounded (bound t)) : Inevitable M A Goal c := by
  induction hn : ∑ t, bound t using Nat.strong_induction_on generalizing c bound with
  | _ n ih =>
    by_cases hf : c.Finished
    · exact .now (hgoal c hc hf)
    · refine .later (hlive c hc hf) fun d hs => ?_
      have hd := hstep c d hc hs
      obtain @⟨t, ch, op, next, r, w, hp, _, _⟩ := hs
      have ht := hb t
      rw [hp] at ht
      cases hk : bound t with
      | zero =>
        rw [hk] at ht
        cases ht
      | succ k =>
        rw [hk] at ht
        cases ht with
        | call hnext =>
          have hlt : ∑ s, Function.update bound t k s < n := by
            rw [← hn]
            apply Finset.sum_lt_sum
            · intro s _
              by_cases hs : s = t
              · subst hs
                simp [hk]
              · simp [Function.update_of_ne hs]
            · exact ⟨t, Finset.mem_univ t, by simp [hk]⟩
          refine ih _ hlt (Function.update bound t k) hd (fun s => ?_) rfl
          by_cases hs : s = t
          · subst hs
            simpa using hnext r
          · simpa [Function.update_of_ne hs] using hb s

end
end RbatisCache.Interleaving
