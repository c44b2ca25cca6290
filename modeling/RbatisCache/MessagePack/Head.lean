import Mathlib.Tactic.Ring
import RbatisCache.MessagePack.Reader

/-! The heads of MessagePack: a marker byte with the number that follows it. A head is written in
its shortest form; a length that does not fit in 32 bits is cut off. -/
namespace RbatisCache.MessagePack

/-! ### Numbers of a fixed width -/

def bigEndian : Nat → Nat → List UInt8
  | 0, _ => []
  | w + 1, n => .ofNat (n / 256 ^ w) :: bigEndian w n

def ofBigEndian (bytes : List UInt8) : Nat := bytes.foldl (fun n b => 256 * n + b.toNat) 0

/-- A number of `w` bytes, from which `f` makes something. -/
def number {α : Type} (w : Nat) (f : Nat → α) : Reader α :=
  (Reader.take w).map fun bytes => f (ofBigEndian bytes)

/-- Two's complement in `w` bytes. -/
def ofTwos (w n : Nat) : Int := if 2 * n < 256 ^ w then n else n - (256 ^ w : Nat)

def toTwos (w : Nat) (i : Int) : Nat := (if i < 0 then i + (256 ^ w : Nat) else i).toNat

/-- The numbers that two's complement in `w` bytes represents. -/
def InTwos (w : Nat) (i : Int) : Prop := -(256 ^ w : Nat) ≤ 2 * i ∧ 2 * i < (256 ^ w : Nat)

instance (w : Nat) (i : Int) : Decidable (InTwos w i) :=
  inferInstanceAs (Decidable (-(256 ^ w : Nat) ≤ 2 * i ∧ 2 * i < (256 ^ w : Nat)))

@[simp] theorem length_bigEndian (w n : Nat) : (bigEndian w n).length = w := by
  induction w with
  | zero => rfl
  | succ w ih => simp [bigEndian, ih]

private theorem foldl_bigEndian (w n a : Nat) :
    (bigEndian w n).foldl (fun n b => 256 * n + b.toNat) a = a * 256 ^ w + n % 256 ^ w := by
  induction w generalizing a with
  | zero => simp [bigEndian, Nat.mod_one]
  | succ w ih =>
    have byte : (UInt8.ofNat (n / 256 ^ w)).toNat = n / 256 ^ w % 256 := UInt8.toNat_ofNat'
    rw [bigEndian, List.foldl_cons, ih, byte, Nat.pow_succ, Nat.mod_mul]
    ring

theorem ofBigEndian_bigEndian {w n : Nat} (h : n < 256 ^ w) : ofBigEndian (bigEndian w n) = n := by
  rw [ofBigEndian, foldl_bigEndian, Nat.zero_mul, Nat.zero_add, Nat.mod_eq_of_lt h]

theorem number_bigEndian {α : Type} {w n : Nat} (h : n < 256 ^ w) (f : Nat → α) :
    (number w f).Reads (bigEndian w n) (f n) := by
  have reads := (Reader.reads_take (length_bigEndian w n)).map (g := fun bytes => f (ofBigEndian bytes))
  rw [ofBigEndian_bigEndian h] at reads
  exact reads

theorem ofBigEndian_lt (bytes : List UInt8) : ofBigEndian bytes < 256 ^ bytes.length := by
  have bound (a : Nat) : bytes.foldl (fun n b => 256 * n + b.toNat) a < (a + 1) * 256 ^ bytes.length := by
    induction bytes generalizing a with
    | nil => simp
    | cons b bytes ih =>
      have hb : 256 * a + b.toNat + 1 ≤ (a + 1) * 256 := by
        have := b.toNat_lt
        omega
      calc (b :: bytes).foldl (fun n b => 256 * n + b.toNat) a
          < (256 * a + b.toNat + 1) * 256 ^ bytes.length := ih _
        _ ≤ (a + 1) * 256 * 256 ^ bytes.length := Nat.mul_le_mul_right _ hb
        _ = (a + 1) * 256 ^ (b :: bytes).length := by
          rw [List.length_cons, Nat.pow_succ']
          ring
  have from_zero := bound 0
  rw [Nat.zero_add, Nat.one_mul] at from_zero
  exact from_zero

theorem yields_number {α : Type} {w : Nat} {f : Nat → α} {P : α → Prop}
    (h : ∀ n < 256 ^ w, P (f n)) : (number w f).Yields P := by
  apply Reader.Yields.map
  intro bytes a rest hr
  have bound := ofBigEndian_lt a
  rw [Reader.yields_take _ _ _ hr] at bound
  exact h _ bound

theorem toTwos_lt {w : Nat} {i : Int} (h : InTwos w i) : toTwos w i < 256 ^ w := by
  obtain ⟨low, high⟩ := h
  unfold toTwos
  generalize 256 ^ w = m at *
  split <;> omega

theorem ofTwos_toTwos {w : Nat} {i : Int} (h : InTwos w i) : ofTwos w (toTwos w i) = i := by
  obtain ⟨low, high⟩ := h
  unfold ofTwos toTwos
  generalize 256 ^ w = m at *
  split <;> split <;> omega

/-! ### Heads -/

/-- What a marker announces: a scalar, or the length of what follows. -/
inductive Head where
  | nil
  | boolean (b : Bool)
  | unsigned (n : UInt64)
  | signed (i : Int64)
  | float32 (bits : UInt32)
  | float64 (bits : UInt64)
  | str (n : Nat)
  | bin (n : Nat)
  | array (n : Nat)
  | map (n : Nat)
  deriving DecidableEq

namespace Head

/-- A marker and the number that it announces, in `w` bytes. -/
def form (marker : UInt8) (w n : Nat) : List UInt8 := marker :: bigEndian w n

/-- The first of the forms that fits, or else the last form. -/
def shortest (fits : Nat → Bool) (digits : Nat → Nat) (last : UInt8 × Nat) :
    List (UInt8 × Nat) → List UInt8
  | [] => form last.1 last.2 (digits last.2)
  | (marker, w) :: longer =>
    if fits w then form marker w (digits w) else shortest fits digits last longer

def shortestUnsigned (n : Nat) : UInt8 × Nat → List (UInt8 × Nat) → List UInt8 :=
  shortest (fun w => decide (n < 256 ^ w)) fun _ => n

def shortestSigned (i : Int) : UInt8 × Nat → List (UInt8 × Nat) → List UInt8 :=
  shortest (fun w => decide (InTwos w i)) fun w => toTwos w i

def encode : Head → List UInt8
  | .nil => [0xc0]
  | .boolean b => [if b then 0xc3 else 0xc2]
  | .unsigned n =>
    if n.toNat < 128 then [.ofNat n.toNat]
    else shortestUnsigned n.toNat (0xcf, 8) [(0xcc, 1), (0xcd, 2), (0xce, 4)]
  | .signed i =>
    if -32 ≤ i.toInt ∧ i.toInt < 0 then [.ofNat (toTwos 1 i.toInt)]
    else shortestSigned i.toInt (0xd3, 8) [(0xd0, 1), (0xd1, 2), (0xd2, 4)]
  | .float32 bits => form 0xca 4 bits.toNat
  | .float64 bits => form 0xcb 8 bits.toNat
  | .str n =>
    if n < 32 then [.ofNat (0xa0 + n)] else shortestUnsigned n (0xdb, 4) [(0xd9, 1), (0xda, 2)]
  | .bin n => shortestUnsigned n (0xc6, 4) [(0xc4, 1), (0xc5, 2)]
  | .array n => if n < 16 then [.ofNat (0x90 + n)] else shortestUnsigned n (0xdd, 4) [(0xdc, 2)]
  | .map n => if n < 16 then [.ofNat (0x80 + n)] else shortestUnsigned n (0xdf, 4) [(0xde, 2)]

/-- Markers without a number inside; those of extensions are not read. -/
def readForm (marker : UInt8) : Reader Head :=
  match marker with
  | 0xc0 => .ret .nil
  | 0xc2 => .ret (.boolean false)
  | 0xc3 => .ret (.boolean true)
  | 0xc4 => number 1 .bin
  | 0xc5 => number 2 .bin
  | 0xc6 => number 4 .bin
  | 0xca => number 4 fun n => .float32 (.ofNat n)
  | 0xcb => number 8 fun n => .float64 (.ofNat n)
  | 0xcc => number 1 fun n => .unsigned (.ofNat n)
  | 0xcd => number 2 fun n => .unsigned (.ofNat n)
  | 0xce => number 4 fun n => .unsigned (.ofNat n)
  | 0xcf => number 8 fun n => .unsigned (.ofNat n)
  | 0xd0 => number 1 fun n => .signed (.ofInt (ofTwos 1 n))
  | 0xd1 => number 2 fun n => .signed (.ofInt (ofTwos 2 n))
  | 0xd2 => number 4 fun n => .signed (.ofInt (ofTwos 4 n))
  | 0xd3 => number 8 fun n => .signed (.ofInt (ofTwos 8 n))
  | 0xd9 => number 1 .str
  | 0xda => number 2 .str
  | 0xdb => number 4 .str
  | 0xdc => number 2 .array
  | 0xdd => number 4 .array
  | 0xde => number 2 .map
  | 0xdf => number 4 .map
  | _ => .fail (.reserved marker)

/-- What follows a marker. -/
def readMarker (marker : UInt8) : Reader Head :=
  if marker.toNat < 0x80 then .ret (.unsigned (.ofNat marker.toNat))
  else if marker.toNat < 0x90 then .ret (.map (marker.toNat - 0x80))
  else if marker.toNat < 0xa0 then .ret (.array (marker.toNat - 0x90))
  else if marker.toNat < 0xc0 then .ret (.str (marker.toNat - 0xa0))
  else if 0xe0 ≤ marker.toNat then .ret (.signed (.ofInt (ofTwos 1 marker.toNat)))
  else readForm marker

def read : Reader Head
  | [] => .error .eof
  | marker :: rest => readMarker marker rest

/-- The length of what follows. -/
def length : Head → Nat
  | .str n | .bin n | .array n | .map n => n
  | _ => 0

/-- The format has room for the length. -/
def Fits (head : Head) : Prop := head.length < 256 ^ 4

instance (head : Head) : Decidable head.Fits := inferInstanceAs (Decidable (head.length < 256 ^ 4))

theorem shortest_ne_nil (fits : Nat → Bool) (digits : Nat → Nat) (last : UInt8 × Nat)
    (forms : List (UInt8 × Nat)) : shortest fits digits last forms ≠ [] := by
  induction forms with
  | nil => exact List.cons_ne_nil _ _
  | cons first longer ih =>
    rw [shortest]
    split
    · exact List.cons_ne_nil _ _
    · exact ih

theorem encode_ne_nil (head : Head) : head.encode ≠ [] := by
  cases head with
  | nil | boolean | float32 | float64 => exact List.cons_ne_nil _ _
  | bin n => exact shortest_ne_nil _ _ _ _
  | unsigned | signed | str | array | map =>
    rw [encode]
    split
    · exact List.cons_ne_nil _ _
    · exact shortest_ne_nil _ _ _ _

/-! ### Reading what was written -/

theorem toNat_byte {n : Nat} (h : n < 256) : (UInt8.ofNat n).toNat = n := by
  apply UInt8.toNat_ofNat_of_lt
  exact h

/-- A marker that is all there is. -/
theorem reads_marker {n : Nat} {head : Head} (h : n < 256)
    (hr : ∀ marker : UInt8, marker.toNat = n → readMarker marker = .ret head) :
    read.Reads [.ofNat n] head := by
  intro rest
  change readMarker (.ofNat n) rest = _
  rw [hr _ (toNat_byte h)]
  rfl

theorem reads_form {marker : UInt8} {w n : Nat} {f : Nat → Head}
    (range : 0xc0 ≤ marker.toNat ∧ marker.toNat < 0xe0) (reads : readForm marker = number w f)
    (h : n < 256 ^ w) : read.Reads (form marker w n) (f n) := by
  obtain ⟨low, high⟩ := range
  intro rest
  change readMarker marker (bigEndian w n ++ rest) = _
  rw [readMarker, if_neg (by omega), if_neg (by omega), if_neg (by omega), if_neg (by omega),
    if_neg (by omega), reads]
  exact number_bigEndian h f rest

theorem reads_shortest {fits : Nat → Bool} {digits : Nat → Nat} {last : UInt8 × Nat}
    {forms : List (UInt8 × Nat)} {head : Head}
    (reads_last : read.Reads (form last.1 last.2 (digits last.2)) head)
    (reads : ∀ p ∈ forms, fits p.2 = true → read.Reads (form p.1 p.2 (digits p.2)) head) :
    read.Reads (shortest fits digits last forms) head := by
  induction forms with
  | nil => exact reads_last
  | cons p longer ih =>
    rw [shortest]
    split
    · next fitting => exact reads p List.mem_cons_self fitting
    · exact ih fun q hq => reads q (List.mem_cons_of_mem _ hq)

/-- A number that is read as it is written, whichever form it takes. -/
theorem reads_shortestUnsigned {n : Nat} {last : UInt8 × Nat} {forms : List (UInt8 × Nat)}
    {f : Nat → Head} (hn : n < 256 ^ last.2)
    (reads : ∀ p ∈ last :: forms, (0xc0 ≤ p.1.toNat ∧ p.1.toNat < 0xe0) ∧
      readForm p.1 = number p.2 f) :
    read.Reads (shortestUnsigned n last forms) (f n) := by
  apply reads_shortest
  · exact reads_form (reads _ List.mem_cons_self).1 (reads _ List.mem_cons_self).2 hn
  · intro p hp fitting
    have hr := reads p (List.mem_cons_of_mem _ hp)
    exact reads_form hr.1 hr.2 (of_decide_eq_true fitting)

theorem reads_unsigned (n : UInt64) : read.Reads (encode (.unsigned n)) (.unsigned n) := by
  have whole : UInt64.ofNat n.toNat = n := UInt64.ofNat_toNat
  rw [encode]
  split
  · next short =>
    apply reads_marker (by omega)
    intro marker hm
    rw [readMarker, hm, if_pos short, whole]
  · have reads : read.Reads (shortestUnsigned n.toNat (0xcf, 8) [(0xcc, 1), (0xcd, 2), (0xce, 4)])
        (.unsigned (.ofNat n.toNat)) :=
      reads_shortestUnsigned (f := fun n => .unsigned (.ofNat n)) n.toNat_lt (by simp [readForm])
    rw [whole] at reads
    exact reads

theorem reads_formSigned {marker : UInt8} {w : Nat} {i : Int64}
    (range : 0xc0 ≤ marker.toNat ∧ marker.toNat < 0xe0)
    (reads : readForm marker = number w fun n => .signed (.ofInt (ofTwos w n)))
    (h : InTwos w i.toInt) : read.Reads (form marker w (toTwos w i.toInt)) (.signed i) := by
  have hr := reads_form range reads (toTwos_lt h)
  rw [ofTwos_toTwos h, Int64.ofInt_toInt] at hr
  exact hr

theorem reads_signed (i : Int64) : read.Reads (encode (.signed i)) (.signed i) := by
  rw [encode]
  split
  · next short =>
    obtain ⟨low, high⟩ := short
    have fits : InTwos 1 i.toInt := ⟨by omega, by omega⟩
    have range : 0xe0 ≤ toTwos 1 i.toInt := by
      unfold toTwos
      split <;> omega
    apply reads_marker (toTwos_lt fits)
    intro marker hm
    rw [readMarker, hm, if_neg (by omega), if_neg (by omega), if_neg (by omega), if_neg (by omega),
      if_pos range, ofTwos_toTwos fits, Int64.ofInt_toInt]
  · have whole : InTwos 8 i.toInt := by
      have low := i.le_toInt
      have high := i.toInt_lt
      exact ⟨by omega, by omega⟩
    apply reads_shortest
    · exact reads_formSigned (by decide) rfl whole
    · simp only [List.forall_mem_cons, decide_eq_true_eq]
      exact ⟨reads_formSigned (by decide) rfl, reads_formSigned (by decide) rfl,
        reads_formSigned (by decide) rfl, nofun⟩

/-- What is written is read back, and nothing of what follows it is touched. -/
theorem reads_encode {head : Head} (h : head.Fits) : read.Reads head.encode head := by
  cases head with
  | nil => exact fun _ => rfl
  | boolean b =>
    cases b with
    | false => exact fun _ => rfl
    | true => exact fun _ => rfl
  | unsigned n => exact reads_unsigned n
  | signed i => exact reads_signed i
  | float32 bits =>
    have reads : read.Reads (form 0xca 4 bits.toNat) (.float32 (.ofNat bits.toNat)) :=
      reads_form (f := fun n => .float32 (.ofNat n)) (by decide) rfl bits.toNat_lt
    rw [UInt32.ofNat_toNat] at reads
    exact reads
  | float64 bits =>
    have reads : read.Reads (form 0xcb 8 bits.toNat) (.float64 (.ofNat bits.toNat)) :=
      reads_form (f := fun n => .float64 (.ofNat n)) (by decide) rfl bits.toNat_lt
    rw [UInt64.ofNat_toNat] at reads
    exact reads
  | str n =>
    rw [encode]
    split
    · next short =>
      apply reads_marker (by omega)
      intro marker hm
      rw [readMarker, hm, if_neg (by omega), if_neg (by omega), if_neg (by omega), if_pos (by omega),
        Nat.add_sub_cancel_left]
    · exact reads_shortestUnsigned h (by simp [readForm])
  | bin n => exact reads_shortestUnsigned h (by simp [readForm])
  | array n =>
    rw [encode]
    split
    · next short =>
      apply reads_marker (by omega)
      intro marker hm
      rw [readMarker, hm, if_neg (by omega), if_neg (by omega), if_pos (by omega),
        Nat.add_sub_cancel_left]
    · exact reads_shortestUnsigned h (by simp [readForm])
  | map n =>
    rw [encode]
    split
    · next short =>
      apply reads_marker (by omega)
      intro marker hm
      rw [readMarker, hm, if_neg (by omega), if_pos (by omega), Nat.add_sub_cancel_left]
    · exact reads_shortestUnsigned h (by simp [readForm])

/-! ### Lengths -/

theorem yields_readForm (marker : UInt8) : (readForm marker).Yields Fits := by
  unfold readForm
  split
  all_goals first
    | exact yields_number fun n hn => by simp only [Fits, length]; omega
    | exact Reader.yields_ret (by decide)
    | exact Reader.yields_fail

theorem yields_readMarker (marker : UInt8) : (readMarker marker).Yields Fits := by
  have small := marker.toNat_lt
  have zero : 0 < 256 ^ 4 := by decide
  have fits {head : Head} (h : head.length < 256) : head.Fits := h.trans (by decide)
  unfold readMarker
  split
  · exact Reader.yields_ret zero
  · split
    · exact Reader.yields_ret (fits (by rw [length]; omega))
    · split
      · exact Reader.yields_ret (fits (by rw [length]; omega))
      · split
        · exact Reader.yields_ret (fits (by rw [length]; omega))
        · split
          · exact Reader.yields_ret zero
          · exact yields_readForm marker

/-- No length is read that does not fit. -/
theorem yields_read : read.Yields Fits := by
  intro bytes head rest hr
  cases bytes with
  | nil => cases hr
  | cons marker bytes => exact yields_readMarker marker _ _ _ hr

end Head
end RbatisCache.MessagePack
