import RbatisCache.RbatisInterceptor.Layers

/-! Generations as numbers of bumps, over a backend that never fails. -/
namespace RbatisCache.RbatisInterceptor
open Interleaving

section
variable {V T : Type}

/-- An increment of the generation of a namespace. -/
def isBump (nameSpace : String) (e : Event T (Op V) Op.Res) : Bool :=
  match e.op with
  | .backend (.bumpGeneration n) => n == nameSpace
  | _ => false

def bumps (nameSpace : String) (h : History V T) : Nat := h.countP (isBump nameSpace)

/-- The namespace whose generation an operation increments. -/
def Op.bumped : Op V → Option String
  | .backend (.bumpGeneration n) => some n
  | _ => none

/-- The namespace whose generation an operation reads. -/
def Op.readGeneration : Op V → Option String
  | .backend (.generation n) => some n
  | _ => none

/-- Fewer than 2^64 bumps of one namespace happen. -/
def FewBumps {B : CacheBackend} : Restriction T (Op V) Op.Res (Choice B V) (World B V) :=
  fun _ op _ _ h => ∀ n ∈ op.bumped, bumps n h + 1 < 2 ^ 64

instance {B : CacheBackend} (t : T) (op : Op V) (ch : Choice B V) (w : World B V)
    (h : History V T) : Decidable (FewBumps t op ch w h) :=
  inferInstanceAs (Decidable (∀ n ∈ op.bumped, bumps n h + 1 < 2 ^ 64))

variable {B : CacheBackend} {H : B.Healthy} {I : RbatisCacheInterceptor} {w u : World B V}
variable {h : History V T} {t : T} {op : Op V} {ch : Choice B V} {r : op.Res} {n : String}

/-- The counters of the backend and its answers about them. -/
structure Counted (H : B.Healthy) (w : World B V) (h : History V T) : Prop where
  counter : ∀ n, ((H.abs w.backend).counter n).toNat = bumps n h
  answered : h.Always fun e s => ∀ t n g, e = ⟨t, .backend (.generation n), .ok g⟩ →
    g.toNat = bumps n s
  bumped : h.Always fun e s => ∀ t n m, e = ⟨t, .backend (.bumpGeneration n), .ok m⟩ →
    m.toNat = bumps n s + 1

theorem bumps_cons_of_not (hop : ∀ o, op ≠ .backend o) :
    bumps n (⟨t, op, r⟩ :: h) = bumps n h := by
  have he : isBump n (⟨t, op, r⟩ : Event T (Op V) Op.Res) = false := by
    cases op with
    | backend o => exact absurd rfl (hop o)
    | _ => rfl
  rw [bumps, bumps, List.countP_cons_of_neg]
  simp [he]

theorem bumps_cons_backend {o : BackendOp} {r : o.Res} :
    bumps n (⟨t, .backend o, r⟩ :: h) = bumps n h + Store.bumpCount n o := by
  cases o with
  | bumpGeneration m =>
    by_cases hm : m = n
    · subst hm
      simp [bumps, isBump, Store.bumpCount]
    · simp [bumps, isBump, Store.bumpCount, hm]
  | _ => simp [bumps, isBump, Store.bumpCount]

theorem op_of_isBump {n : String} {b : Event T (Op V) Op.Res} (hb : isBump n b = true) :
    b.op = .backend (.bumpGeneration n) := by
  obtain ⟨w, op, r⟩ := b
  cases op with
  | backend o =>
    cases o with
    | bumpGeneration m =>
      obtain rfl : m = n := by simpa [isBump] using hb
      rfl
    | _ => cases hb
  | _ => cases hb

theorem bumps_le_of_suffix {s : History V T} (hs : s <:+ h) : bumps n s ≤ bumps n h :=
  hs.sublist.countP_le

theorem Counted.step (hi : Counted H w h) (hf : FewBumps t op ch w h)
    (hm : (machine B V T I).perform t op ch w = some (r, u)) : Counted H u (⟨t, op, r⟩ :: h) := by
  by_cases hop : ∀ o, op ≠ .backend o
  · refine ⟨fun n => ?_, hi.answered.cons ?_, hi.bumped.cons ?_⟩
    · rw [backend_of_perform hop hm, bumps_cons_of_not hop, hi.counter]
    · intro s n g he
      cases he
      exact absurd rfl (hop _)
    · intro s n m he
      cases he
      exact absurd rfl (hop _)
  · push Not at hop
    obtain ⟨o, rfl⟩ := hop
    obtain ⟨hr, rfl⟩ := Prod.mk.inj (Option.some.inj hm)
    have hs := H.serves o ch.backend w.backend
    rw [hr] at hs
    refine ⟨fun n => ?_, hi.answered.cons ?_, hi.bumped.cons ?_⟩
    · rw [bumps_cons_backend, ← hi.counter]
      refine hs.counter fun bump => ?_
      subst bump
      rw [hi.counter]
      exact hf n rfl
    · intro s n g he
      cases he
      rw [← hi.counter, ← Except.ok.inj hs.1]
    · intro s n m he
      cases he
      have hm := Except.ok.inj hs.1
      have hfew : bumps n h + 1 < 2 ^ 64 := hf n rfl
      rw [hm, saturatingAdd, if_pos, UInt64.toNat_add, hi.counter]
      · exact Nat.mod_eq_of_lt hfew
      · rw [hi.counter]
        exact hfew

private theorem counted_initial [DecidableEq T] {X : Externals Bytes} {C : ValueCodec V}
    {tasks : T → Task V} {state : B.State} (empty : H.abs state = .empty) :
    Counted H (initial I X C tasks state).world (initial I X C tasks state).history where
  counter n := by simp [initial, World.new, empty, Store.empty, bumps]
  answered := History.always_nil
  bumped := History.always_nil

/-- In every run with few bumps over an empty backend. -/
theorem reaches_counted [DecidableEq T] {X : Externals Bytes} {C : ValueCodec V}
    {tasks : T → Task V} {state : B.State} (empty : H.abs state = .empty)
    {A : Restriction T (Op V) Op.Res (Choice B V) (World B V)}
    (few : ∀ t op ch w h, A t op ch w h → FewBumps t op ch w h)
    {d : Config T (Op V) Op.Res (World B V) (Reply V)}
    (run : Reaches (machine B V T I) A (initial I X C tasks state) d) :
    Counted H d.world d.history := by
  have hp : Preserves (machine B V T I) A (fun t => rule I X C (tasks t)) (Counted H) :=
    fun _ _ _ _ _ _ _ hi _ ha hm => hi.step (few _ _ _ _ _ ha) hm
  exact (run.preserves hp (obeys_initial tasks state) (counted_initial empty)).1

end
end RbatisCache.RbatisInterceptor
