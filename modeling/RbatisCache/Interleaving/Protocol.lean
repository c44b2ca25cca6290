import RbatisCache.Interleaving.Program

/-! Verification in two steps. A program obeys a protocol when what it does next is always allowed
by what it has done so far; an invariant holds in every run when tasks that obey their protocols
preserve it. The first step is sequential, the second one never looks at a program. -/
namespace RbatisCache.Interleaving

namespace Prog
variable {Op : Type} {Res : Op → Type} {α β : Type}

/-- A task that has done `done` so far goes on as `rule` allows and returns what `Q` allows. -/
def Obeys (rule : List (Sigma Res) → Op → Prop) (Q : α → List (Sigma Res) → Prop) :
    Prog Op Res α → List (Sigma Res) → Prop
  | .ret a, done => Q a done
  | .call op next, done => rule done op ∧ ∀ r, Obeys rule Q (next r) (⟨op, r⟩ :: done)

section
variable {rule : List (Sigma Res) → Op → Prop} {Q R : α → List (Sigma Res) → Prop}
variable {p : Prog Op Res α} {done : List (Sigma Res)}

theorem Obeys.mono (hqr : ∀ a done, Q a done → R a done) (h : p.Obeys rule Q done) :
    p.Obeys rule R done := by
  induction p generalizing done with
  | ret a => exact hqr a done h
  | call op next ih => exact ⟨h.1, fun r => ih r (h.2 r)⟩

theorem Obeys.and {rule' : List (Sigma Res) → Op → Prop} (h : p.Obeys rule Q done)
    (h' : p.Obeys rule' R done) : p.Obeys (fun done op => rule done op ∧ rule' done op)
      (fun a after => Q a after ∧ R a after) done := by
  induction p generalizing done with
  | ret a => exact ⟨h, h'⟩
  | call op next ih => exact ⟨⟨h.1, h'.1⟩, fun r => ih r (h.2 r) (h'.2 r)⟩

theorem Obeys.weaken {rule' : List (Sigma Res) → Op → Prop} (h : p.Obeys rule Q done)
    (allowed : ∀ done op, rule done op → rule' done op) : p.Obeys rule' Q done := by
  induction p generalizing done with
  | ret a => exact h
  | call op next ih => exact ⟨allowed done op h.1, fun r => ih r (h.2 r)⟩

/-- Sequential composition: the second program starts wherever the first may return. -/
theorem Obeys.bind {S : β → List (Sigma Res) → Prop} {f : α → Prog Op Res β}
    (h : p.Obeys rule (fun a done => (f a).Obeys rule S done) done) :
    (p.bind f).Obeys rule S done := by
  induction p generalizing done with
  | ret a => exact h
  | call op next ih => exact ⟨h.1, fun r => ih r (h.2 r)⟩

/-- A task's record of what it has done only grows. -/
theorem Obeys.grows (h : p.Obeys rule Q done) :
    p.Obeys rule (fun a after => Q a after ∧ done <:+ after) done := by
  induction p generalizing done with
  | ret a => exact ⟨h, List.suffix_refl _⟩
  | call op next ih =>
    refine ⟨h.1, fun r => (ih r (h.2 r)).mono fun a after ha => ?_⟩
    exact ⟨ha.1, (List.suffix_cons _ _).trans ha.2⟩

/-- Composition with what the first program has done at hand. -/
theorem Obeys.andThen {S : β → List (Sigma Res) → Prop} {f : α → Prog Op Res β}
    (h : p.Obeys rule Q done)
    (hf : ∀ a after, Q a after → done <:+ after → (f a).Obeys rule S after) :
    (p.bind f).Obeys rule S done :=
  (h.grows.mono fun a after ha => hf a after ha.1 ha.2).bind

/-- Operations that keep `K`, a property of the record that allows them. -/
theorem Only.obeys {P : Op → Prop} {K : List (Sigma Res) → Prop} (h : p.Only P)
    (allowed : ∀ done op, P op → K done → rule done op)
    (kept : ∀ done op r, P op → K done → K (⟨op, r⟩ :: done)) (hd : K done) :
    p.Obeys rule (fun _ after => K after) done := by
  induction p generalizing done with
  | ret a => exact hd
  | call op next ih =>
    exact ⟨allowed done op h.1 hd, fun r => ih r (h.2 r) (kept done op r h.1 hd)⟩

/-- However its operations are answered, a program that has done `done` ends as `Q` says. -/
abbrev Ensures (Q : α → List (Sigma Res) → Prop) (p : Prog Op Res α) (done : List (Sigma Res)) :
    Prop :=
  p.Obeys (fun _ _ => True) Q done

theorem ensures_true : p.Ensures (fun _ _ => True) done := by
  induction p generalizing done with
  | ret a => trivial
  | call op next ih => exact ⟨trivial, fun r => ih r⟩

theorem Ensures.and (h : p.Ensures Q done) (h' : p.Ensures R done) :
    p.Ensures (fun a after => Q a after ∧ R a after) done :=
  (Obeys.and h h').weaken fun _ _ _ => trivial

/-- A program that only performs what a rule allows. -/
theorem Ensures.obeys {P : Op → Prop} (h : p.Ensures Q done) (ho : p.Only P)
    (allowed : ∀ done op, P op → rule done op) : p.Obeys rule Q done := by
  induction p generalizing done with
  | ret a => exact h
  | call op next ih => exact ⟨allowed done op ho.1, fun r => ih r (h.2 r) (ho.2 r)⟩

theorem Only.ensures {P : Op → Prop} {K : List (Sigma Res) → Prop} (h : p.Only P)
    (kept : ∀ done op r, P op → K done → K (⟨op, r⟩ :: done)) (hd : K done) :
    p.Ensures (fun _ after => K after) done :=
  h.obeys (fun _ _ _ _ => trivial) kept hd

end
end Prog

section
variable {T Op : Type} {Res : Op → Type} {C W α : Type} [DecidableEq T]
variable {M : Machine T Op Res C W} {A : Restriction T Op Res C W}

/-- Every task of the family obeys its protocol. -/
def Config.Obeys (rule : T → List (Sigma Res) → Op → Prop) (Q : T → α → List (Sigma Res) → Prop)
    (c : Config T Op Res W α) : Prop :=
  ∀ t, (c.tasks t).Obeys (rule t) (Q t) (c.history.own t)

/-- The steps of tasks that obey their protocols preserve the invariant. -/
def Preserves (M : Machine T Op Res C W) (A : Restriction T Op Res C W)
    (rule : T → List (Sigma Res) → Op → Prop) (inv : W → History T Op Res → Prop) : Prop :=
  ∀ t op ch w h r u, inv w h → rule t (h.own t) op → A t op ch w h →
    M.perform t op ch w = some (r, u) → inv u (⟨t, op, r⟩ :: h)

variable {rule : T → List (Sigma Res) → Op → Prop} {Q : T → α → List (Sigma Res) → Prop}
variable {inv : W → History T Op Res → Prop} {c d : Config T Op Res W α}

theorem Step.obeys (h : Step M A c d) (hc : c.Obeys rule Q) : d.Obeys rule Q := by
  obtain @⟨t, ch, op, next, r, w, hp, -, -⟩ := h
  intro s
  by_cases hs : s = t
  · subst hs
    have ht := hc s
    rw [hp] at ht
    simpa using ht.2 r
  · rw [History.own_cons_ne (Ne.symm hs)]
    simpa [Function.update_of_ne hs] using hc s

theorem Step.preserves (h : Step M A c d) (hpres : Preserves M A rule inv) (hc : c.Obeys rule Q)
    (hinv : inv c.world c.history) : inv d.world d.history := by
  obtain @⟨t, ch, op, next, r, w, hp, ha, hm⟩ := h
  have ht := hc t
  rw [hp] at ht
  exact hpres t op ch c.world c.history r w hinv ht.1 ha hm

theorem Reaches.obeys (h : Reaches M A c d) (hc : c.Obeys rule Q) : d.Obeys rule Q := by
  induction h with
  | refl => exact hc
  | tail _ hs ih => exact hs.obeys ih

/-- Tasks that obey their protocols keep the invariant in every run of the family. -/
theorem Reaches.preserves (h : Reaches M A c d) (hpres : Preserves M A rule inv)
    (hc : c.Obeys rule Q) (hinv : inv c.world c.history) :
    inv d.world d.history ∧ d.Obeys rule Q := by
  induction h with
  | refl => exact ⟨hinv, hc⟩
  | tail _ hs ih => exact ⟨hs.preserves hpres ih.2 ih.1, hs.obeys ih.2⟩

/-- Every event was allowed by its task's protocol when it happened. -/
def Lawful (rule : T → List (Sigma Res) → Op → Prop) (h : History T Op Res) : Prop :=
  h.Always fun e s => rule e.task (s.own e.task) e.op

theorem Lawful.suffix {h s : History T Op Res} (hl : Lawful rule h) (hs : s <:+ h) :
    Lawful rule s :=
  History.Always.suffix hl hs

/-- As `Preserves`, for an invariant about lawful histories. -/
def PreservesLawful (M : Machine T Op Res C W) (A : Restriction T Op Res C W)
    (rule : T → List (Sigma Res) → Op → Prop) (inv : W → History T Op Res → Prop) : Prop :=
  ∀ t op ch w h r u, Lawful rule h → inv w h → rule t (h.own t) op → A t op ch w h →
    M.perform t op ch w = some (r, u) → inv u (⟨t, op, r⟩ :: h)

/-- Tasks that start from nothing and obey their protocols leave a lawful history behind. -/
theorem Reaches.lawful (h : Reaches M A c d) (hpres : PreservesLawful M A rule inv)
    (hc : c.Obeys rule Q) (start : c.history = []) (hinv : inv c.world c.history) :
    Lawful rule d.history ∧ inv d.world d.history ∧ d.Obeys rule Q := by
  have hp : Preserves M A rule fun w h => Lawful rule h ∧ inv w h :=
    fun t op ch w h r u hi hr ha hm =>
      ⟨hi.1.cons hr, hpres t op ch w h r u hi.1 hi.2 hr ha hm⟩
  have hstart : Lawful rule c.history := by
    rw [start]
    exact History.always_nil
  obtain ⟨⟨hl, hi⟩, hd⟩ := h.preserves hp hc ⟨hstart, hinv⟩
  exact ⟨hl, hi, hd⟩

/-- Tasks that start from nothing and obey their protocols do what these allow. -/
theorem Reaches.lawful_of_obeys (h : Reaches M A c d) (hc : c.Obeys rule Q)
    (start : c.history = []) : Lawful rule d.history ∧ d.Obeys rule Q := by
  have nothing : PreservesLawful M A rule fun _ _ => True := fun _ _ _ _ _ _ _ _ _ _ _ _ => trivial
  obtain ⟨law, -, later⟩ := h.lawful nothing hc start trivial
  exact ⟨law, later⟩

/-- What the environment has made sure of at every event. -/
theorem Reaches.permitted {P : Event T Op Res → History T Op Res → Prop} (h : Reaches M A c d)
    (hA : ∀ t op ch w h r u, A t op ch w h → M.perform t op ch w = some (r, u) → P ⟨t, op, r⟩ h)
    (start : c.history = []) : d.history.Always P := by
  induction h with
  | refl =>
    rw [start]
    exact History.always_nil
  | tail _ hs ih =>
    obtain ⟨-, ha, hm⟩ := hs
    exact ih.cons (hA _ _ _ _ _ _ _ ha hm)

/-- What a returned value satisfies. -/
theorem Config.Obeys.returned (hc : c.Obeys rule Q) {t : T} {a : α} (h : c.tasks t = .ret a) :
    Q t a (c.history.own t) := by
  have ht := hc t
  rwa [h] at ht

/-- What a task that is about to perform an operation has made sure of. -/
theorem Config.Obeys.allowed (hc : c.Obeys rule Q) {t : T} {op : Op}
    {next : Res op → Prog Op Res α} (h : c.tasks t = .call op next) :
    rule t (c.history.own t) op := by
  have ht := hc t
  rw [h] at ht
  exact ht.1

end
end RbatisCache.Interleaving
