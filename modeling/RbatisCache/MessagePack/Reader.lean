import Mathlib.Data.List.Basic

/-! Readers of byte strings, with rules for what they read, how they compare and what they yield. -/
namespace RbatisCache.MessagePack

inductive DecodeError where
  | eof
  | reserved (marker : UInt8)
  | utf8
  | depthLimitExceeded
  deriving DecidableEq, Repr

/-- A reader consumes a prefix of its input. -/
abbrev Reader (α : Type) := List UInt8 → Except DecodeError (α × List UInt8)

namespace Reader
variable {α β : Type}

def ret (a : α) : Reader α := fun bytes => .ok (a, bytes)

def fail (e : DecodeError) : Reader α := fun _ => .error e

def bind (p : Reader α) (f : α → Reader β) : Reader β := fun bytes =>
  match p bytes with
  | .error e => .error e
  | .ok (a, rest) => f a rest

def map (f : α → β) (p : Reader α) : Reader β := p.bind fun a => ret (f a)

/-- The next `n` bytes. -/
def take (n : Nat) : Reader (List UInt8) := fun bytes =>
  if n ≤ bytes.length then .ok (bytes.take n, bytes.drop n) else .error .eof

/-- What `p` reads `n` times over. -/
def many (p : Reader α) : Nat → Reader (List α)
  | 0 => ret []
  | n + 1 => p.bind fun a => (many p n).bind fun as => ret (a :: as)

def pair (p : Reader α) (q : Reader β) : Reader (α × β) := p.bind fun a => q.map fun b => (a, b)

/-- In front of anything, the bytes are read as `a`. -/
def Reads (p : Reader α) (bytes : List UInt8) (a : α) : Prop :=
  ∀ rest, p (bytes ++ rest) = .ok (a, rest)

/-- All that `p` reads, `q` reads as well. -/
def Extends (q p : Reader α) : Prop := ∀ bytes r, p bytes = .ok r → q bytes = .ok r

/-- All that is read satisfies `P`. -/
def Yields (p : Reader α) (P : α → Prop) : Prop := ∀ bytes a rest, p bytes = .ok (a, rest) → P a

variable {p p' : Reader α} {q q' : Reader β} {f f' : α → Reader β}
variable {bytes bytes' : List UInt8} {a : α} {b : β}

theorem bind_ok {r : β × List UInt8} (h : p.bind f bytes = .ok r) :
    ∃ a rest, p bytes = .ok (a, rest) ∧ f a rest = .ok r := by
  unfold bind at h
  split at h
  · cases h
  · next a rest hp => exact ⟨a, rest, hp, h⟩

/-! ### Reading -/

theorem reads_ret : (ret a).Reads [] a := fun _ => rfl

theorem Reads.bind (h : p.Reads bytes a) (hf : (f a).Reads bytes' b) :
    (p.bind f).Reads (bytes ++ bytes') b := by
  intro rest
  rw [List.append_assoc, Reader.bind, h]
  exact hf rest

theorem Reads.map {g : α → β} (h : p.Reads bytes a) : (p.map g).Reads bytes (g a) := by
  intro rest
  rw [Reader.map, Reader.bind, h]
  rfl

theorem reads_take {n : Nat} (h : bytes.length = n) : (take n).Reads bytes bytes := by
  intro rest
  subst h
  simp [take]

theorem Reads.many {write : α → List UInt8} {as : List α} (h : ∀ a ∈ as, p.Reads (write a) a) :
    (many p as.length).Reads (as.flatMap write) as := by
  induction as with
  | nil => exact reads_ret
  | cons a as ih =>
    rw [List.flatMap_cons]
    exact (h a List.mem_cons_self).bind
      ((ih fun b hb => h b (List.mem_cons_of_mem _ hb)).map (g := fun as => a :: as))

theorem Reads.pair (hp : p.Reads bytes a) (hq : q.Reads bytes' b) :
    (pair p q).Reads (bytes ++ bytes') (a, b) :=
  hp.bind hq.map

/-- Two readings of the same bytes agree. -/
theorem Reads.unique {a' : α} {rest rest' : List UInt8} (h : p'.Reads bytes a) (he : Extends p' p)
    (hr : p (bytes ++ rest) = .ok (a', rest')) : a' = a := by
  have both := he _ _ hr
  rw [h rest] at both
  cases both
  rfl

/-! ### Comparing -/

theorem Extends.refl : Extends p p := fun _ _ h => h

theorem Extends.bind (h : Extends p' p) (hf : ∀ a, Extends (f' a) (f a)) :
    Extends (p'.bind f') (p.bind f) := by
  intro bytes r hr
  obtain ⟨a, rest, hp, hr⟩ := bind_ok hr
  rw [Reader.bind, h _ _ hp]
  exact hf a _ _ hr

theorem Extends.many {n : Nat} (h : Extends p' p) : Extends (many p' n) (many p n) := by
  induction n with
  | zero => exact .refl
  | succ n ih => exact h.bind fun _ => ih.bind fun _ => .refl

theorem Extends.pair (hp : Extends p' p) (hq : Extends q' q) : Extends (pair p' q') (pair p q) :=
  hp.bind fun _ => hq.bind fun _ => .refl

/-! ### Yielding -/

variable {P : α → Prop} {Q : β → Prop}

theorem yields_ret (h : P a) : (ret a).Yields P := by
  intro bytes a' rest hr
  cases hr
  exact h

theorem yields_fail {e : DecodeError} : (fail e : Reader α).Yields P := nofun

theorem Yields.bind (h : p.Yields P) (hf : ∀ a, P a → (f a).Yields Q) : (p.bind f).Yields Q := by
  intro bytes b rest hr
  obtain ⟨a, rest', hp, hr⟩ := bind_ok hr
  exact hf a (h _ _ _ hp) _ _ _ hr

theorem Yields.map {g : α → β} (h : p.Yields fun a => Q (g a)) : (p.map g).Yields Q :=
  h.bind fun _ ha => yields_ret ha

theorem yields_take {n : Nat} : (take n).Yields fun bytes => bytes.length = n := by
  intro bytes a rest hr
  unfold take at hr
  split at hr
  · next enough =>
    cases hr
    exact List.length_take_of_le enough
  · cases hr

theorem Yields.many {n : Nat} (h : p.Yields P) :
    (many p n).Yields fun as => as.length = n ∧ ∀ a ∈ as, P a := by
  induction n with
  | zero => exact yields_ret ⟨rfl, nofun⟩
  | succ n ih =>
    refine h.bind fun a ha => ih.bind fun as has => yields_ret ⟨?_, ?_⟩
    · rw [List.length_cons, has.1]
    · exact List.forall_mem_cons.mpr ⟨ha, has.2⟩

theorem Yields.pair (hp : p.Yields P) (hq : q.Yields Q) :
    (pair p q).Yields fun ab => P ab.1 ∧ Q ab.2 :=
  hp.bind fun _ ha => hq.bind fun _ hb => yields_ret ⟨ha, hb⟩

end Reader
end RbatisCache.MessagePack
