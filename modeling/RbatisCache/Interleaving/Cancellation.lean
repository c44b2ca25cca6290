import RbatisCache.Interleaving.Progress
import RbatisCache.Interleaving.Protocol

/-! Programs that may be given up. While a program awaits an operation it can be dropped, before the
operation has been performed or after it; what it has left to do then is to clean up. -/
namespace RbatisCache.Interleaving.Prog

section
variable {Op : Type} {Res : Op → Type} {α : Type}

/-- The program, with `done` behind it, when it is dropped at the await point at which its patience is
at an end; a program that is not dropped returns what it would have returned. -/
def droppable (awaits : Op → Bool) (cleanup : List (Sigma Res) → Prog Op Res Unit) :
    Nat → Prog Op Res α → List (Sigma Res) → Prog Op Res (Option α)
  | _, .ret a, _ => .ret (some a)
  | patience, .call op next, done =>
    if awaits op then
      match patience with
      | 0 => (cleanup done).bind fun _ => .ret none
      | 1 => .call op fun r => (cleanup (⟨op, r⟩ :: done)).bind fun _ => .ret none
      | patience + 2 =>
        .call op fun r => droppable awaits cleanup patience (next r) (⟨op, r⟩ :: done)
    else .call op fun r => droppable awaits cleanup patience (next r) (⟨op, r⟩ :: done)

variable {awaits : Op → Bool} {cleanup : List (Sigma Res) → Prog Op Res Unit} {p : Prog Op Res α}
variable {patience n m : Nat} {done : List (Sigma Res)}

/-- A program that obeys a rule obeys a wider one when it may be dropped, if its cleanup does wherever
it awaits an operation. `K` is what its record satisfies until then. -/
theorem Obeys.droppable_at {rule wide : List (Sigma Res) → Op → Prop} {K : List (Sigma Res) → Prop}
    {Q : α → List (Sigma Res) → Prop} {R : Option α → List (Sigma Res) → Prop}
    (allowed : ∀ done op, K done → rule done op → wide done op)
    (kept : ∀ done op r, K done → rule done op → K (⟨op, r⟩ :: done))
    (returned : ∀ a done, K done → Q a done → R (some a) done)
    (before : ∀ done op, K done → rule done op → awaits op = true →
      (cleanup done).Obeys wide (fun _ after => R none after) done)
    (behind : ∀ done op r, K done → rule done op → awaits op = true →
      (cleanup (⟨op, r⟩ :: done)).Obeys wide (fun _ after => R none after) (⟨op, r⟩ :: done))
    (start : K done) (h : p.Obeys rule Q done) :
    (p.droppable awaits cleanup patience done).Obeys wide R done := by
  induction p generalizing patience done with
  | ret a => exact returned a done start h
  | call op next ih =>
    have now := allowed done op start h.1
    have later (r : Res op) := kept done op r start h.1
    unfold Prog.droppable
    split
    · next awaited =>
      split
      · exact (before done op start h.1 awaited).bind
      · exact ⟨now, fun r => (behind done op r start h.1 awaited).bind⟩
      · exact ⟨now, fun r => ih r (later r) (h.2 r)⟩
    · exact ⟨now, fun r => ih r (later r) (h.2 r)⟩

/-- The same, if it can clean up wherever it is. -/
theorem Obeys.droppable {rule wide : List (Sigma Res) → Op → Prop} {K : List (Sigma Res) → Prop}
    {Q : α → List (Sigma Res) → Prop} {R : Option α → List (Sigma Res) → Prop}
    (allowed : ∀ done op, K done → rule done op → wide done op)
    (kept : ∀ done op r, K done → rule done op → K (⟨op, r⟩ :: done))
    (returned : ∀ a done, K done → Q a done → R (some a) done)
    (cleaned : ∀ done, K done → (cleanup done).Obeys wide (fun _ after => R none after) done)
    (start : K done) (h : p.Obeys rule Q done) :
    (p.droppable awaits cleanup patience done).Obeys wide R done :=
  Obeys.droppable_at allowed kept returned (fun done _ same _ _ => cleaned done same)
    (fun done op r same now _ => cleaned _ (kept done op r same now)) start h

theorem Bounded.droppable (h : p.Bounded n) (cleaned : ∀ done, (cleanup done).Bounded m) :
    (p.droppable awaits cleanup patience done).Bounded (n + m) := by
  have left (done : List (Sigma Res)) :
      ((cleanup done).bind fun _ => .ret (none : Option α)).Bounded m :=
    (cleaned done).bind fun _ => .ret 0 none
  induction h generalizing patience done with
  | ret n a => exact .ret _ _
  | @call n op next _ ih =>
    rw [show n + 1 + m = n + m + 1 by omega]
    unfold Prog.droppable
    split
    · split
      · exact (left done).mono (by omega)
      · exact .call fun r => (left _).mono (by omega)
      · exact .call fun r => ih r
    · exact .call fun r => ih r

/-- With patience enough nothing is dropped. -/
theorem Bounded.droppable_eq (h : p.Bounded n) (patient : 2 * n ≤ patience) :
    p.droppable awaits cleanup patience done = p.bind fun a => .ret (some a) := by
  induction h generalizing patience done with
  | ret n a => rfl
  | @call n op next _ ih =>
    unfold Prog.droppable
    rw [call_bind]
    split
    · match patience with
      | 0 | 1 => omega
      | patience + 2 => exact congrArg (Prog.call op) (funext fun r => ih r (by omega))
    · exact congrArg (Prog.call op) (funext fun r => ih r (by omega))

end
end RbatisCache.Interleaving.Prog
