import RbatisCache.Interleaving.Linearization

/-! Decorated programs. Between the operations of a plain program they perform some of their own, on a
state of their own, and they return what the plain program returns. Without these operations a run of
decorated programs is a run of the plain ones. -/
namespace RbatisCache.Interleaving

/-- The results of operations of two kinds. -/
@[reducible] def Both {Op Extra : Type} (Res : Op → Type) (ExtraRes : Extra → Type) : Op ⊕ Extra → Type
  | .inl op => Res op
  | .inr e => ExtraRes e

section
variable {Op Extra : Type} {Res : Op → Type} {ExtraRes : Extra → Type} {α β : Type}

namespace Prog

/-- The first program performs the operations of the second one, and others in between. -/
inductive Decorates : Prog (Op ⊕ Extra) (Both Res ExtraRes) α → Prog Op Res α → Prop
  | ret (a : α) : Decorates (.ret a) (.ret a)
  | shared {op : Op} {next : Res op → Prog (Op ⊕ Extra) (Both Res ExtraRes) α}
      {plain : Res op → Prog Op Res α} (same : ∀ r, Decorates (next r) (plain r)) :
      Decorates (.call (.inl op) next) (.call op plain)
  | extra {e : Extra} {next : ExtraRes e → Prog (Op ⊕ Extra) (Both Res ExtraRes) α}
      {plain : Prog Op Res α} (same : ∀ r, Decorates (next r) plain) :
      Decorates (.call (.inr e) next) plain

/-- A plain program among decorated ones. -/
abbrev plain (p : Prog Op Res α) : Prog (Op ⊕ Extra) (Both Res ExtraRes) α :=
  p.lift .inl fun _ r => r

variable {p : Prog (Op ⊕ Extra) (Both Res ExtraRes) α} {q : Prog Op Res α}
variable {f : α → Prog (Op ⊕ Extra) (Both Res ExtraRes) β} {g : α → Prog Op Res β}

theorem Decorates.bind (h : Decorates p q) (hfg : ∀ a, Decorates (f a) (g a)) :
    Decorates (p.bind f) (q.bind g) := by
  induction h with
  | ret a => exact hfg a
  | shared same ih => exact .shared ih
  | extra same ih => exact .extra ih

theorem decorates_plain (p : Prog Op Res α) :
    Decorates (p.plain : Prog (Op ⊕ Extra) (Both Res ExtraRes) α) p := by
  induction p with
  | ret a => exact .ret a
  | call op next ih => exact .shared ih

/-- Operations of one's own first. -/
theorem Decorates.after {before : Prog (Op ⊕ Extra) (Both Res ExtraRes) β}
    {rest : β → Prog (Op ⊕ Extra) (Both Res ExtraRes) α} (own : before.Only fun op => op.isRight)
    (h : ∀ b, Decorates (rest b) q) : Decorates (before.bind rest) q := by
  induction before with
  | ret b => exact h b
  | call op next ih =>
    cases op with
    | inl op => cases own.1
    | inr e => exact .extra fun r => ih r (own.2 r)

end Prog
end

section
variable {T Op Extra : Type} {Res : Op → Type} {ExtraRes : Extra → Type} {C W V α : Type}

/-- What has happened but for the operations of the decorations. -/
def History.plain : History T (Op ⊕ Extra) (Both Res ExtraRes) → History T Op Res
  | [] => []
  | ⟨t, .inl op, r⟩ :: h => ⟨t, op, r⟩ :: plain h
  | ⟨_, .inr _, _⟩ :: h => plain h

/-- A machine beside a state that nobody else sees. -/
def Machine.beside (M : Machine T Op Res C W) (own : (e : Extra) → V → ExtraRes e × V) :
    Machine T (Op ⊕ Extra) (Both Res ExtraRes) C (W × V) where
  perform t
    | .inl op, ch, w => (M.perform t op ch w.1).map fun out => (out.1, (out.2, w.2))
    | .inr e, _, w => some ((own e w.2).1, (w.1, (own e w.2).2))

def Restriction.beside (A : Restriction T Op Res C W) :
    Restriction T (Op ⊕ Extra) (Both Res ExtraRes) C (W × V)
  | t, .inl op, ch, w, h => A t op ch w.1 h.plain
  | _, .inr _, _, _, _ => True

instance {A : Restriction T Op Res C W} [∀ t op ch w h, Decidable (A t op ch w h)] (t : T)
    (op : Op ⊕ Extra) (ch : C) (w : W × V) (h : History T (Op ⊕ Extra) (Both Res ExtraRes)) :
    Decidable (A.beside t op ch w h) :=
  match op with
  | .inl op => inferInstanceAs (Decidable (A t op ch w.1 h.plain))
  | .inr _ => .isTrue trivial

/-- What is left of a configuration without the decorations. -/
structure Config.Decorates (c : Config T (Op ⊕ Extra) (Both Res ExtraRes) (W × V) α)
    (p : Config T Op Res W α) : Prop where
  world : p.world = c.world.1
  history : p.history = c.history.plain
  tasks : ∀ t, (c.tasks t).Decorates (p.tasks t)

variable {M : Machine T Op Res C W} {A : Restriction T Op Res C W}
variable {own : (e : Extra) → V → ExtraRes e × V}
variable {c d : Config T (Op ⊕ Extra) (Both Res ExtraRes) (W × V) α} {p : Config T Op Res W α}

/-- Who has returned here has returned the same without the decorations. -/
theorem Config.Decorates.returned (h : c.Decorates p) {t : T} {a : α} (ret : c.returned t = some a) :
    p.returned t = some a := by
  rw [Config.returned_eq_some] at ret ⊢
  have same := h.tasks t
  rw [ret] at same
  generalize p.tasks t = q at same ⊢
  cases same
  rfl

variable [DecidableEq T]

theorem decorates_update {tasks : T → Prog (Op ⊕ Extra) (Both Res ExtraRes) α}
    {plain : T → Prog Op Res α} (h : ∀ t, (tasks t).Decorates (plain t)) {t : T}
    {q : Prog (Op ⊕ Extra) (Both Res ExtraRes) α} {q' : Prog Op Res α} (same : q.Decorates q') (s : T) :
    (Function.update tasks t q s).Decorates (Function.update plain t q' s) := by
  by_cases hs : s = t
  · subst hs
    rwa [Function.update_self, Function.update_self]
  · rw [Function.update_of_ne hs, Function.update_of_ne hs]
    exact h s

/-- A step is a step of the plain programs, or none. -/
theorem Step.plain (step : Step (M.beside own) A.beside c d) (h : c.Decorates p) :
    ∃ q, (q = p ∨ Step M A p q) ∧ d.Decorates q := by
  obtain @⟨t, ch, op, next, r, w, hp, ha, hm⟩ := step
  have same := h.tasks t
  rw [hp] at same
  generalize hq : p.tasks t = q at same
  cases op with
  | inl op =>
    cases same with
    | @shared _ _ plain same =>
      obtain ⟨⟨r', w'⟩, performed, out⟩ := Option.map_eq_some_iff.mp hm
      obtain ⟨rfl, rfl⟩ := Prod.mk.inj out
      have allowed : A t op ch p.world p.history := by
        rw [h.world, h.history]
        exact ha
      rw [← h.world] at performed
      exact ⟨⟨w', ⟨t, op, r'⟩ :: p.history, Function.update p.tasks t (plain r')⟩,
        .inr ⟨hq, allowed, performed⟩, rfl, congrArg (List.cons _) h.history,
        decorates_update h.tasks (same r')⟩
  | inr e =>
    cases same with
    | extra same =>
      obtain ⟨rfl, rfl⟩ := Prod.mk.inj (Option.some.inj hm)
      refine ⟨p, .inl rfl, h.world, h.history, fun s => ?_⟩
      subst hq
      rw [← Function.update_eq_self t p.tasks]
      exact decorates_update h.tasks (same (own e c.world.2).1) s

theorem Reaches.plain (run : Reaches (M.beside own) A.beside c d) (h : c.Decorates p) :
    ∃ q, Reaches M A p q ∧ d.Decorates q := by
  induction run with
  | refl => exact ⟨p, .refl, h⟩
  | tail _ step ih =>
    obtain ⟨mid, before, same⟩ := ih
    obtain ⟨q, rfl | last, same'⟩ := step.plain same
    · exact ⟨q, before, same'⟩
    · exact ⟨q, before.tail last, same'⟩

/-! ### Calls that follow each other -/

/-- What one task has done but for the operations of its decoration. -/
def plainDone : List (Sigma (Both Res ExtraRes)) → List (Sigma Res)
  | [] => []
  | ⟨.inl op, r⟩ :: done => ⟨op, r⟩ :: plainDone done
  | ⟨.inr _, _⟩ :: done => plainDone done

theorem own_plain (h : History T (Op ⊕ Extra) (Both Res ExtraRes)) (t : T) :
    h.plain.own t = plainDone (h.own t) := by
  induction h with
  | nil => rfl
  | cons e h ih =>
    obtain ⟨s, op, r⟩ := e
    by_cases same : s = t
    · subst same
      cases op with
      | inl op => rw [History.plain, History.own_cons_self, History.own_cons_self, ih, plainDone]
      | inr e => rw [History.plain, History.own_cons_self, ih, plainDone]
    · rw [History.own_cons_ne same, ← ih]
      cases op with
      | inl op => exact History.own_cons_ne same
      | inr e => rfl

omit [DecidableEq T] in
theorem plain_suffix {s h : History T (Op ⊕ Extra) (Both Res ExtraRes)} (suffix : s <:+ h) :
    s.plain <:+ h.plain := by
  obtain ⟨later, rfl⟩ := suffix
  induction later with
  | nil => exact List.suffix_refl _
  | cons e later ih =>
    obtain ⟨t, op, r⟩ := e
    cases op with
    | inl op => exact ih.trans (List.suffix_cons _ _)
    | inr e => exact ih

theorem History.Before.plain {h : History T (Op ⊕ Extra) (Both Res ExtraRes)} {t u : T}
    (before : h.Before t u) : h.plain.Before t u := by
  obtain ⟨s, suffix, all, none⟩ := before
  refine ⟨s.plain, plain_suffix suffix, ?_, ?_⟩
  · rw [own_plain, own_plain, all]
  · rw [own_plain, none, plainDone]

/-- An order that explains the plain calls explains the decorated ones. -/
theorem Linearizes.decorated {Call S : Type} {Out : Call → Type}
    {spec : (call : Call) → Out call → S → S → Prop} {drift : S → S → Prop} {first last : S}
    {order : History T Call Out} {c : Config T (Op ⊕ Extra) (Both Res ExtraRes) (W × V) (Sigma Out)}
    {p : Config T Op Res W (Sigma Out)} (same : c.Decorates p)
    (h : Linearizes spec drift first last p.history p.returned order) :
    Linearizes spec drift first last c.history c.returned order where
  serial := h.serial
  once t out told := h.once t out (same.returned told)
  respects a ha b hb before := h.respects a ha b hb (same.history ▸ before.plain)

end
end RbatisCache.Interleaving
