import RbatisCache.Interleaving.Protocol

/-! Linearization. A call takes effect at one of the operations of its task, its point; taken in the order
of their points the calls are a serial history of a specification. -/
namespace RbatisCache.Interleaving

/-- Calls that a specification answers one after the other, the last one first. The state may drift
between two of them. -/
inductive Serial {T Call S : Type} {Out : Call → Type} (spec : (call : Call) → Out call → S → S → Prop)
    (drift : S → S → Prop) (first : S) : History T Call Out → S → Prop
  | start : Serial spec drift first [] first
  | answered {order : History T Call Out} {s s' : S} {t : T} {call : Call} {out : Out call}
      (before : Serial spec drift first order s) (answers : spec call out s s') :
      Serial spec drift first (⟨t, call, out⟩ :: order) s'
  | drifted {order : History T Call Out} {s s' : S} (before : Serial spec drift first order s)
      (drifts : drift s s') : Serial spec drift first order s'

/-- What an operation of a task makes of the state: the effect of its call if it is the point. -/
def Effect {Call S : Type} {Out : Call → Type} (spec : (call : Call) → Out call → S → S → Prop)
    (drift : S → S → Prop) : Option (Sigma Out) → S → S → Prop
  | some c => spec c.1 c.2
  | none => drift

section
variable {T Op Call : Type} {Res : Op → Type} {Out : Call → Type}

/-- The calls whose points are among the operations of one task. -/
def taken (point : List (Sigma Res) → Sigma Res → Option (Sigma Out)) :
    List (Sigma Res) → List (Sigma Out)
  | [] => []
  | e :: done => (point done e).toList ++ taken point done

variable [DecidableEq T]

/-- All that one task has done, it has done before another one has done anything. -/
def History.Before (h : History T Op Res) (t u : T) : Prop :=
  ∃ s : History T Op Res, s <:+ h ∧ s.own t = h.own t ∧ s.own u = []

variable (points : T → List (Sigma Res) → Sigma Res → Option (Sigma Out))

/-- The calls in the order of their points. -/
def linearize : History T Op Res → History T Call Out
  | [] => []
  | ⟨t, op, r⟩ :: h =>
    ((points t (History.own h t) ⟨op, r⟩).toList.map fun c => ⟨t, c.1, c.2⟩) ++ linearize h

variable {points} {h s : History T Op Res} {t u : T}

theorem own_map_self (l : List (Sigma Out)) :
    History.own (l.map fun c => (⟨t, c.1, c.2⟩ : Event T Call Out)) t = l := by
  induction l with
  | nil => rfl
  | cons c l ih => rw [List.map_cons, History.own_cons_self, ih]

theorem own_map_ne (other : t ≠ u) (l : List (Sigma Out)) :
    History.own (l.map fun c => (⟨t, c.1, c.2⟩ : Event T Call Out)) u = [] := by
  induction l with
  | nil => rfl
  | cons c l ih => rw [List.map_cons, History.own_cons_ne other, ih]

theorem own_linearize (h : History T Op Res) (t : T) :
    (linearize points h).own t = taken (points t) (h.own t) := by
  induction h with
  | nil => rfl
  | cons e h ih =>
    obtain ⟨u, op, r⟩ := e
    rw [linearize, History.own_append, ih]
    by_cases same : u = t
    · subst same
      rw [own_map_self, History.own_cons_self, taken]
    · rw [own_map_ne same, History.own_cons_ne same, List.nil_append]

theorem linearize_suffix (points : T → List (Sigma Res) → Sigma Res → Option (Sigma Out))
    (suffix : s <:+ h) : linearize points s <:+ linearize points h := by
  obtain ⟨later, rfl⟩ := suffix
  induction later with
  | nil => exact List.suffix_refl _
  | cons e later ih => exact ih.trans (List.suffix_append _ _)

/-- The order of the points respects the order of tasks that do not overlap. -/
theorem precedes_linearize {a b : Event T Call Out} (ha : a ∈ linearize points h)
    (hb : b ∈ linearize points h) (before : h.Before a.task b.task) :
    (linearize points h).Precedes a b := by
  obtain ⟨s, suffix, all, none⟩ := before
  have early : a ∈ linearize points s := by
    obtain ⟨t, c, out⟩ := a
    rw [← History.mem_own, own_linearize] at ha ⊢
    exact all ▸ ha
  have late : b ∉ linearize points s := by
    intro member
    obtain ⟨t, c, out⟩ := b
    rw [← History.mem_own, own_linearize] at member
    rw [none] at member
    exact List.not_mem_nil member
  obtain ⟨later, split⟩ := linearize_suffix points suffix
  rw [← split] at hb ⊢
  rcases List.mem_append.mp hb with new | old
  · obtain ⟨l, r, rfl⟩ := List.append_of_mem new
    refine ⟨r ++ linearize points s, ⟨l, ?_⟩, List.mem_append_right r early⟩
    rw [List.append_assoc, List.cons_append]
  · exact absurd old late

/-- A serial order that explains what the tasks of a run have been told. -/
structure Linearizes {S : Type} (spec : (call : Call) → Out call → S → S → Prop) (drift : S → S → Prop)
    (first last : S) (h : History T Op Res) (told : T → Option (Sigma Out))
    (order : History T Call Out) : Prop where
  serial : Serial spec drift first order last
  /-- A call that has returned took effect once, and was told what it was told then. -/
  once : ∀ t c, told t = some c → order.own t = [c]
  /-- Calls that follow each other take effect in that order. -/
  respects : ∀ a ∈ order, ∀ b ∈ order, h.Before a.task b.task → order.Precedes a b

end

section
variable {T Op Call C W S : Type} {Res : Op → Type} {Out : Call → Type} [DecidableEq T]
variable {M : Machine T Op Res C W} {A : Restriction T Op Res C W}
variable {rule : T → List (Sigma Res) → Op → Prop} {inv : W → History T Op Res → Prop}
variable {points : T → List (Sigma Res) → Sigma Res → Option (Sigma Out)}
variable {spec : (call : Call) → Out call → S → S → Prop} {drift : S → S → Prop} {abs : W → S}

/-- Every operation has the effect of its point. -/
def Effects (M : Machine T Op Res C W) (A : Restriction T Op Res C W)
    (rule : T → List (Sigma Res) → Op → Prop) (inv : W → History T Op Res → Prop)
    (points : T → List (Sigma Res) → Sigma Res → Option (Sigma Out))
    (spec : (call : Call) → Out call → S → S → Prop) (drift : S → S → Prop) (abs : W → S) : Prop :=
  ∀ t op ch w h r u, Lawful rule h → inv w h → rule t (h.own t) op → A t op ch w h →
    M.perform t op ch w = some (r, u) →
    Effect spec drift (points t (h.own t) ⟨op, r⟩) (abs w) (abs u)

/-- If every operation has the effect of its point, the points are serial. -/
theorem PreservesLawful.serial (preserves : PreservesLawful M A rule inv)
    (effects : Effects M A rule inv points spec drift abs) {first : S} :
    PreservesLawful M A rule fun w h => inv w h ∧
      Serial spec drift first (linearize points h) (abs w) := by
  intro t op ch w h r u lawful ⟨kept, serial⟩ allowed permitted performed
  refine ⟨preserves t op ch w h r u lawful kept allowed permitted performed, ?_⟩
  have effect := effects t op ch w h r u lawful kept allowed permitted performed
  rw [linearize]
  cases taken : points t (h.own t) ⟨op, r⟩ with
  | none =>
    rw [taken] at effect
    exact serial.drifted effect
  | some c =>
    rw [taken] at effect
    exact serial.answered effect

/-- The points of a run linearize it, if every call that has returned has taken its point. -/
theorem Reaches.linearizes {α : Type} {Q : T → α → List (Sigma Res) → Prop}
    {c d : Config T Op Res W α} {told : T → Option (Sigma Out)} (run : Reaches M A c d)
    (preserves : PreservesLawful M A rule inv) (effects : Effects M A rule inv points spec drift abs)
    (obeys : c.Obeys rule Q) (start : c.history = []) (initially : inv c.world c.history)
    (took : ∀ t x, told t = some x → taken (points t) (d.history.own t) = [x]) :
    Linearizes spec drift (abs c.world) (abs d.world) d.history told (linearize points d.history) := by
  have first : inv c.world c.history ∧
      Serial spec drift (abs c.world) (linearize points c.history) (abs c.world) := by
    refine ⟨initially, ?_⟩
    rw [start]
    exact .start
  obtain ⟨-, ⟨-, serial⟩, -⟩ := run.lawful (preserves.serial effects) obeys start first
  exact ⟨serial, fun t x tells => (own_linearize _ t).trans (took t x tells),
    fun a ha b hb before => precedes_linearize ha hb before⟩

end
end RbatisCache.Interleaving
