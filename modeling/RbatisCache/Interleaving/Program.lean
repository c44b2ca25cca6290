import Mathlib.Logic.Function.Basic
import Mathlib.Logic.Relation
import RbatisCache.Interleaving.History

/-! Sequential programs whose accesses to shared state are atomic operations, and the runs of
a family of such programs under an arbitrary scheduler. -/
namespace RbatisCache.Interleaving

/-- A program either is finished or performs one atomic operation and continues with its result. -/
inductive Prog (Op : Type) (Res : Op → Type) (α : Type) : Type where
  | ret (a : α) : Prog Op Res α
  | call (op : Op) (next : Res op → Prog Op Res α) : Prog Op Res α

namespace Prog
variable {Op : Type} {Res : Op → Type} {α β : Type}

def bind : Prog Op Res α → (α → Prog Op Res β) → Prog Op Res β
  | .ret a, f => f a
  | .call op next, f => .call op fun r => (next r).bind f

instance : Monad (Prog Op Res) where
  pure := .ret
  bind := Prog.bind

def perform (op : Op) : Prog Op Res (Res op) := .call op .ret

@[simp] theorem pure_eq (a : α) : (pure a : Prog Op Res α) = .ret a := rfl
@[simp] theorem bind_eq (p : Prog Op Res α) (f : α → Prog Op Res β) : (p >>= f) = p.bind f := rfl
@[simp] theorem ret_bind (a : α) (f : α → Prog Op Res β) : (Prog.ret a).bind f = f a := rfl
@[simp] theorem call_bind (op : Op) (next : Res op → Prog Op Res α) (f : α → Prog Op Res β) :
    (Prog.call op next).bind f = .call op fun r => (next r).bind f := rfl
@[simp] theorem perform_bind (op : Op) (f : Res op → Prog Op Res β) :
    (perform op).bind f = .call op f := rfl

theorem bind_ret (p : Prog Op Res α) : p.bind .ret = p := by
  induction p with
  | ret a => rfl
  | call op next ih => exact congrArg (Prog.call op) (funext ih)

/-- A program in a wider language of operations. -/
def lift {Wide : Type} {WideRes : Wide → Type} (wide : Op → Wide)
    (narrow : ∀ op, WideRes (wide op) → Res op) : Prog Op Res α → Prog Wide WideRes α
  | .ret a => .ret a
  | .call op next => .call (wide op) fun r => (next (narrow op r)).lift wide narrow

/-- A program that runs alone. -/
def run {W : Type} (perform : (op : Op) → W → Res op × W) : Prog Op Res α → W → α × W
  | .ret a, w => (a, w)
  | .call op next, w => run perform (next (perform op w).1) (perform op w).2

theorem run_bind {W : Type} (perform : (op : Op) → W → Res op × W) (p : Prog Op Res α)
    (f : α → Prog Op Res β) (w : W) :
    run perform (p.bind f) w = run perform (f (run perform p w).1) (run perform p w).2 := by
  induction p generalizing w with
  | ret a => rfl
  | call op next ih => exact ih (perform op w).1 (perform op w).2

/-- A value that some sequence of operation results makes the program return. -/
inductive Returns : Prog Op Res α → α → Prop
  | ret (a : α) : Returns (.ret a) a
  | call {op : Op} {next : Res op → Prog Op Res α} {a : α} (r : Res op) :
      Returns (next r) a → Returns (.call op next) a

/-- All operations satisfy `P`, whatever the results. -/
def Only (P : Op → Prop) : Prog Op Res α → Prop
  | .ret _ => True
  | .call op next => P op ∧ ∀ r, (next r).Only P

section
variable {P : Op → Prop} {p : Prog Op Res α} {f : α → Prog Op Res β}

@[simp] theorem only_ret (a : α) : (Prog.ret a : Prog Op Res α).Only P := trivial

@[simp] theorem only_call {op : Op} {next : Res op → Prog Op Res α} :
    (Prog.call op next).Only P ↔ P op ∧ ∀ r, (next r).Only P := Iff.rfl

theorem Only.mono {R : Op → Prop} (h : p.Only P) (hpr : ∀ op, P op → R op) : p.Only R := by
  induction p with
  | ret a => trivial
  | call op next ih => exact ⟨hpr op h.1, fun r => ih r (h.2 r)⟩

theorem Only.bind (h : p.Only P) (hf : ∀ a, (f a).Only P) : (p.bind f).Only P := by
  induction p with
  | ret a => exact hf a
  | call op next ih => exact ⟨h.1, fun r => ih r (h.2 r)⟩

end

/-- At most `n` operations are performed, whatever their results. -/
inductive Bounded : Nat → Prog Op Res α → Prop
  | ret (n : Nat) (a : α) : Bounded n (.ret a)
  | call {n : Nat} {op : Op} {next : Res op → Prog Op Res α} :
      (∀ r, Bounded n (next r)) → Bounded (n + 1) (.call op next)

end Prog

/-- The atomic operations as partial functions of the calling task, the environment's choice
and the shared state; `none` is an operation that cannot be performed yet. -/
structure Machine (T Op : Type) (Res : Op → Type) (C W : Type) where
  perform : T → (op : Op) → C → W → Option (Res op × W)

/-- The shared state, what has happened, and what is left of every task's program. The history
is auxiliary: no operation reads it. -/
structure Config (T Op : Type) (Res : Op → Type) (W α : Type) where
  world : W
  history : History T Op Res
  tasks : T → Prog Op Res α

/-- Which operations the environment lets a task perform in which states. -/
abbrev Restriction (T Op : Type) (Res : Op → Type) (C W : Type) :=
  T → Op → C → W → History T Op Res → Prop

section
variable {T Op : Type} {Res : Op → Type} {C W α : Type} [DecidableEq T]

def Restriction.none : Restriction T Op Res C W := fun _ _ _ _ _ => True

omit [DecidableEq T] in
instance (t : T) (op : Op) (ch : C) (w : W) (h : History T Op Res) :
    Decidable (Restriction.none t op ch w h) := .isTrue trivial

/-- One task performs its next operation. -/
inductive Step (M : Machine T Op Res C W) (A : Restriction T Op Res C W) :
    Config T Op Res W α → Config T Op Res W α → Prop
  | mk {c : Config T Op Res W α} {t : T} {ch : C} {op : Op} {next : Res op → Prog Op Res α}
      {r : Res op} {w : W} (program : c.tasks t = .call op next)
      (allowed : A t op ch c.world c.history)
      (performed : M.perform t op ch c.world = some (r, w)) :
      Step M A c ⟨w, ⟨t, op, r⟩ :: c.history, Function.update c.tasks t (next r)⟩

def Reaches (M : Machine T Op Res C W) (A : Restriction T Op Res C W) :
    Config T Op Res W α → Config T Op Res W α → Prop :=
  Relation.ReflTransGen (Step M A)

def Config.returned (c : Config T Op Res W α) (t : T) : Option α :=
  match c.tasks t with
  | .ret a => some a
  | .call _ _ => none

omit [DecidableEq T] in
theorem Config.returned_eq_some {c : Config T Op Res W α} {t : T} {a : α} :
    c.returned t = some a ↔ c.tasks t = .ret a := by
  unfold Config.returned
  cases c.tasks t <;> simp

/-- A task that has not begun or has returned. -/
def Config.Idle (c : Config T Op Res W α) (t : T) : Prop :=
  c.history.own t = [] ∨ ∃ a, c.tasks t = .ret a

variable {M : Machine T Op Res C W} {A B : Restriction T Op Res C W} {c d : Config T Op Res W α}

/-- What a step is that leaves a given event behind. -/
theorem Step.performed (h : Step M A c d) {t : T} {op : Op} {r : Res op}
    (he : d.history = ⟨t, op, r⟩ :: c.history) : ∃ ch next, c.tasks t = .call op next ∧
      A t op ch c.world c.history ∧ M.perform t op ch c.world = some (r, d.world) := by
  obtain @⟨s, ch, op', next, r', w, hp, ha, hm⟩ := h
  cases (List.cons.inj he).1
  exact ⟨ch, next, hp, ha, hm⟩

theorem Reaches.weaken (hab : ∀ t op ch w h, A t op ch w h → B t op ch w h)
    (h : Reaches M A c d) : Reaches M B c d :=
  Relation.ReflTransGen.mono (fun _ _ ⟨hp, ha, hm⟩ => ⟨hp, hab _ _ _ _ _ ha, hm⟩) _ _ h

section
variable (M A) [∀ t op ch w h, Decidable (A t op ch w h)]

/-- The step of a chosen task under a chosen environment, when it is possible and allowed. -/
def advance (t : T) (ch : C) (c : Config T Op Res W α) : Option (Config T Op Res W α) :=
  match c.tasks t with
  | .ret _ => none
  | .call op next =>
    if A t op ch c.world c.history then
      (M.perform t op ch c.world).map fun out =>
        ⟨out.2, ⟨t, op, out.1⟩ :: c.history, Function.update c.tasks t (next out.1)⟩
    else none

/-- The run that a schedule of tasks and environment choices determines. -/
def play : List (T × C) → Config T Op Res W α → Option (Config T Op Res W α)
  | [], c => some c
  | (t, ch) :: rest, c => (advance M A t ch c).bind (play rest)

end

variable [∀ t op ch w h, Decidable (A t op ch w h)]

theorem advance_step {t : T} {ch : C} (h : advance M A t ch c = some d) : Step M A c d := by
  unfold advance at h
  split at h
  · cases h
  · next op next hp =>
    split at h
    · next ha =>
      obtain ⟨⟨r, w⟩, hm, rfl⟩ := Option.map_eq_some_iff.mp h
      exact ⟨hp, ha, hm⟩
    · cases h

theorem play_reaches {schedule : List (T × C)} (h : play M A schedule c = some d) :
    Reaches M A c d := by
  induction schedule generalizing c with
  | nil =>
    cases h
    exact .refl
  | cons step rest ih =>
    obtain ⟨mid, hs, hr⟩ := Option.bind_eq_some_iff.mp h
    exact .head (advance_step hs) (ih hr)

/-- An observation of the end of a schedule yields a run whose end shows it. -/
theorem play_observed (schedule : List (T × C)) (seen : Config T Op Res W α → Bool)
    (h : (play M A schedule c).any seen = true) : ∃ d, Reaches M A c d ∧ seen d = true := by
  cases hp : play M A schedule c with
  | none => simp [hp] at h
  | some d => exact ⟨d, play_reaches hp, by simpa [hp] using h⟩

end
end RbatisCache.Interleaving
