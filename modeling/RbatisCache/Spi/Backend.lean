import RbatisCache.Spi.Primitives
import Mathlib.Logic.Function.Basic

/-! The backend interface (`CacheBackend` of `backend.rs`) and what it promises: an ideal store
whose entries may vanish but are never altered, and whose counters only ever count bumps. -/
namespace RbatisCache

inductive BackendOp where
  | get (key : String)
  | put (key : String) (value : Bytes) (ttl : Duration)
  | generation (nameSpace : String)
  | bumpGeneration (nameSpace : String)
  deriving DecidableEq

@[reducible] def BackendOp.Res : BackendOp → Type
  | .get _ => Except CacheError (Option Bytes)
  | .put _ _ _ => Except CacheError Unit
  | .generation _ => Except CacheError UInt64
  | .bumpGeneration _ => Except CacheError UInt64

instance : ∀ op : BackendOp, DecidableEq op.Res
  | .get _ => inferInstanceAs (DecidableEq (Except CacheError (Option Bytes)))
  | .put _ _ _ => inferInstanceAs (DecidableEq (Except CacheError Unit))
  | .generation _ | .bumpGeneration _ => inferInstanceAs (DecidableEq (Except CacheError UInt64))

/-- An implementation of the interface. `Choice` is what a call does not decide itself, such as
the clock it reads or whether it fails. -/
structure CacheBackend where
  State : Type
  Choice : Type
  perform : (op : BackendOp) → Choice → State → op.Res × State

/-- The ideal store. -/
structure Store where
  content : String → Option Bytes
  counter : String → UInt64

namespace Store

def empty : Store := ⟨fun _ => none, fun _ => 0⟩

def put (s : Store) (key : String) (value : Bytes) : Store :=
  { s with content := Function.update s.content key (some value) }

def bump (s : Store) (nameSpace : String) : Store :=
  { s with counter := Function.update s.counter nameSpace (s.counter nameSpace + 1) }

@[simp] theorem put_content_self (s : Store) (key : String) (value : Bytes) :
    (s.put key value).content key = some value := Function.update_self _ _ _

theorem put_content_ne (s : Store) {k key : String} (value : Bytes) (h : k ≠ key) :
    (s.put key value).content k = s.content k := Function.update_of_ne h _ _

@[simp] theorem put_counter (s : Store) (key : String) (value : Bytes) :
    (s.put key value).counter = s.counter := rfl

@[simp] theorem bump_content (s : Store) (nameSpace : String) :
    (s.bump nameSpace).content = s.content := rfl

@[simp] theorem bump_counter_self (s : Store) (nameSpace : String) :
    (s.bump nameSpace).counter nameSpace = s.counter nameSpace + 1 := Function.update_self _ _ _

theorem bump_counter_ne (s : Store) {n nameSpace : String} (h : n ≠ nameSpace) :
    (s.bump nameSpace).counter n = s.counter n := Function.update_of_ne h _ _

/-- `s'` is `s` after the loss of some entries. -/
structure Shrinks (s s' : Store) : Prop where
  content : ∀ {k b}, s'.content k = some b → s.content k = some b
  counter : s'.counter = s.counter

theorem Shrinks.refl (s : Store) : s.Shrinks s := ⟨id, rfl⟩

theorem Shrinks.trans {s t u : Store} (h : s.Shrinks t) (g : t.Shrinks u) : s.Shrinks u :=
  ⟨fun hk => h.content (g.content hk), g.counter.trans h.counter⟩

theorem Shrinks.put {s t : Store} (h : s.Shrinks t) (key : String) (value : Bytes) :
    (s.put key value).Shrinks (t.put key value) where
  content := by
    intro k b hk
    by_cases he : k = key
    · subst he
      simpa using hk
    · rw [put_content_ne _ _ he] at hk ⊢
      exact h.content hk
  counter := h.counter

theorem Shrinks.bump {s t : Store} (h : s.Shrinks t) (nameSpace : String) :
    (s.bump nameSpace).Shrinks (t.bump nameSpace) where
  content := h.content
  counter := by simp [Store.bump, h.counter]

/-- A successful answer of the ideal store to one call, with the state it leaves. -/
def Serves : (op : BackendOp) → op.Res → Store → Store → Prop
  | .get k, r, s, s' => (r = .ok none ∨ r = .ok (s.content k)) ∧ s.Shrinks s'
  | .put k v _, r, s, s' => r = .ok () ∧ (s.put k v).Shrinks s'
  | .generation n, r, s, s' => r = .ok (s.counter n) ∧ s.Shrinks s'
  | .bumpGeneration n, r, s, s' => r = .ok (saturatingAdd (s.counter n) 1) ∧ (s.bump n).Shrinks s'

/-- The answer of the ideal store when nothing is lost. -/
def Keeps : (op : BackendOp) → op.Res → Store → Store → Prop
  | .get k, r, s, s' => r = .ok (s.content k) ∧ s' = s
  | .put k v _, r, s, s' => r = .ok () ∧ s' = s.put k v
  | .generation n, r, s, s' => r = .ok (s.counter n) ∧ s' = s
  | .bumpGeneration n, r, s, s' => r = .ok (saturatingAdd (s.counter n) 1) ∧ s' = s.bump n

theorem Serves.of_shrinks {op : BackendOp} {r : op.Res} {s t u : Store} (h : s.Shrinks t)
    (hs : Serves op r t u) : Serves op r s u := by
  cases op with
  | get k =>
    obtain ⟨hr, hu⟩ := hs
    refine ⟨?_, h.trans hu⟩
    rcases hr with hr | hr
    · exact .inl hr
    · cases hc : t.content k with
      | none => exact .inl (hr.trans (congrArg _ hc))
      | some v => exact .inr (hr.trans (congrArg _ (hc.trans (h.content hc).symm)))
  | put k v ttl => exact ⟨hs.1, (h.put k v).trans hs.2⟩
  | generation n => exact ⟨hs.1.trans (congrArg _ (congrFun h.counter n)), h.trans hs.2⟩
  | bumpGeneration n =>
    refine ⟨hs.1.trans ?_, (h.bump n).trans hs.2⟩
    rw [h.counter]

/-- What a put leaves in the store: an entry is old or has just been put. -/
theorem content_of_put {s s' : Store} {k l : String} {b v : Bytes} (h : (s.put l v).Shrinks s')
    (hk : s'.content k = some b) : s.content k = some b ∨ k = l ∧ v = b := by
  have hk := h.content hk
  by_cases same : k = l
  · subst same
    rw [put_content_self] at hk
    exact .inr ⟨rfl, Option.some.inj hk⟩
  · rw [put_content_ne _ _ same] at hk
    exact .inl hk

theorem Serves.content {op : BackendOp} {r : op.Res} {s s' : Store} (hs : Serves op r s s')
    {k : String} {b : Bytes} (hk : s'.content k = some b) :
    s.content k = some b ∨ ∃ ttl, op = .put k b ttl := by
  cases op with
  | get l => exact .inl (hs.2.content hk)
  | put l v ttl =>
    rcases content_of_put hs.2 hk with old | ⟨rfl, rfl⟩
    · exact .inl old
    · exact .inr ⟨ttl, rfl⟩
  | generation n => exact .inl (hs.2.content hk)
  | bumpGeneration n => exact .inl (hs.2.content hk)

/-- The number of bumps of a namespace that an operation is. -/
def bumpCount (n : String) : BackendOp → Nat
  | .bumpGeneration m => if m = n then 1 else 0
  | _ => 0

/-- A counter counts the bumps of its namespace until it overflows. -/
theorem Serves.counter {op : BackendOp} {r : op.Res} {s s' : Store} (hs : Serves op r s s')
    {n : String} (few : op = .bumpGeneration n → (s.counter n).toNat + 1 < 2 ^ 64) :
    (s'.counter n).toNat = (s.counter n).toNat + bumpCount n op := by
  cases op with
  | get k => exact congrArg (fun c => (c n).toNat) hs.2.counter
  | put k v ttl => exact congrArg (fun c => (c n).toNat) hs.2.counter
  | generation m => exact congrArg (fun c => (c n).toNat) hs.2.counter
  | bumpGeneration m =>
    rw [hs.2.counter]
    by_cases hm : m = n
    · subst hm
      rw [bump_counter_self, UInt64.toNat_add, bumpCount, if_pos rfl]
      exact Nat.mod_eq_of_lt (few rfl)
    · rw [bump_counter_ne _ (Ne.symm hm), bumpCount, if_neg hm, Nat.add_zero]

end Store

/-- A backend that never fails and behaves like the ideal store, seen through `abs`. -/
structure CacheBackend.Healthy (B : CacheBackend) where
  abs : B.State → Store
  serves : ∀ op ch s, Store.Serves op (B.perform op ch s).1 (abs s) (abs (B.perform op ch s).2)

/-- Whether an answer is an error. -/
def BackendOp.Failed : (op : BackendOp) → op.Res → Prop
  | .get _, r => ∃ e, r = .error e
  | .put _ _ _, r => ∃ e, r = .error e
  | .generation _, r => ∃ e, r = .error e
  | .bumpGeneration _, r => ∃ e, r = .error e

instance : ∀ (op : BackendOp) (r : op.Res), Decidable (op.Failed r)
  | .get _, .error e | .put _ _ _, .error e | .generation _, .error e
  | .bumpGeneration _, .error e => .isTrue ⟨e, rfl⟩
  | .get _, .ok _ | .put _ _ _, .ok _ | .generation _, .ok _ | .bumpGeneration _, .ok _ =>
    .isFalse nofun

def BackendOp.isGeneration : BackendOp → Bool
  | .generation _ => true
  | _ => false

/-- What a failed call may have done: all it was asked for, or nothing. -/
def Store.Fails : BackendOp → Store → Store → Prop
  | .put k v _, s, s' => s.Shrinks s' ∨ (s.put k v).Shrinks s'
  | .bumpGeneration n, s, s' => s.Shrinks s' ∨ (s.bump n).Shrinks s'
  | .get _, s, s' | .generation _, s, s' => s.Shrinks s'

/-- A backend that behaves like the ideal store whenever it does not report a failure. -/
structure CacheBackend.Honest (B : CacheBackend) where
  abs : B.State → Store
  answers : ∀ op ch s,
    Store.Serves op (B.perform op ch s).1 (abs s) (abs (B.perform op ch s).2) ∨
    op.Failed (B.perform op ch s).1 ∧ Store.Fails op (abs s) (abs (B.perform op ch s).2)

def CacheBackend.Healthy.honest {B : CacheBackend} (H : B.Healthy) : B.Honest :=
  ⟨H.abs, fun op ch s => .inl (H.serves op ch s)⟩

/-- What a step of an honest backend leaves in the store: an entry is old or has just been put. -/
theorem CacheBackend.Honest.content {B : CacheBackend} (H : B.Honest) {op : BackendOp}
    {ch : B.Choice} {s : B.State} {k : String} {b : Bytes}
    (h : (H.abs (B.perform op ch s).2).content k = some b) :
    (H.abs s).content k = some b ∨ ∃ ttl, op = .put k b ttl := by
  rcases H.answers op ch s with hs | ⟨-, hs⟩
  · exact hs.content h
  · cases op with
    | get l => exact .inl (hs.content h)
    | put l v ttl =>
      rcases hs with hs | hs
      · exact .inl (hs.content h)
      · rcases Store.content_of_put hs h with old | ⟨rfl, rfl⟩
        · exact .inl old
        · exact .inr ⟨ttl, rfl⟩
    | generation n => exact .inl (hs.content h)
    | bumpGeneration n =>
      rcases hs with hs | hs
      · exact .inl (hs.content h)
      · exact .inl (hs.content h)

/-- An honest backend only returns what it holds. -/
theorem CacheBackend.Honest.got {B : CacheBackend} (H : B.Honest) {k : String} {ch : B.Choice}
    {s : B.State} {b : Bytes} (h : (B.perform (.get k) ch s).1 = .ok (some b)) :
    (H.abs s).content k = some b := by
  rcases H.answers (.get k) ch s with ⟨hr | hr, -⟩ | ⟨⟨e, he⟩, -⟩
  · rw [h] at hr
    cases hr
  · rw [h] at hr
    exact (Except.ok.inj hr).symm
  · rw [h] at he
    cases he

end RbatisCache
