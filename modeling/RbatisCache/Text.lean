import Mathlib.Data.List.DropRight

/-! Text as the characters of a `str`, and the methods of `str` that the parsers call. Offsets count
characters. -/
namespace RbatisCache.Text

/-- `char::is_whitespace`: Unicode's `White_Space`. -/
def isWhitespace (c : Char) : Bool :=
  let n := c.toNat
  9 ≤ n && n ≤ 13 || n == 0x20 || n == 0x85 || n == 0xA0 || n == 0x1680 ||
    0x2000 ≤ n && n ≤ 0x200A || n == 0x2028 || n == 0x2029 || n == 0x202F || n == 0x205F ||
    n == 0x3000

def trim (s : List Char) : List Char := (s.dropWhile isWhitespace).rdropWhile isWhitespace

def splitWhitespace (s : List Char) : List (List Char) :=
  (s.splitOnP isWhitespace).filter fun token => !token.isEmpty

def stripCarriageReturn (line : List Char) : List Char :=
  if line.getLast? = some '\r' then line.dropLast else line

/-- What a newline ends, and what is left after the last one unless that is nothing. -/
def lines (s : List Char) : List (List Char) :=
  (s.splitOn '\n').dropLast.map stripCarriageReturn ++
    (s.splitOn '\n').getLast?.toList.filter fun line => !line.isEmpty

/-- The offset of the first occurrence. -/
def find (pattern : List Char) : List Char → Option Nat
  | [] => if pattern = [] then some 0 else none
  | c :: s => if pattern.isPrefixOf (c :: s) then some 0 else (find pattern s).map (· + 1)

def eqIgnoreAsciiCase (s t : List Char) : Bool := s.map Char.toLower == t.map Char.toLower

/-- What is before and what is after the first separator. -/
def splitOnce (separator : Char) (s : List Char) : Option (List Char × List Char) :=
  match s.dropWhile (· != separator) with
  | [] => none
  | _ :: rest => some (s.takeWhile (· != separator), rest)

/-- The digits of `str::parse`, after a plus sign if there is one. -/
def unsignedDigits : List Char → List Char
  | '+' :: rest => rest
  | s => s

def parseDigits (max : Nat) (digits : List Char) : Option Nat :=
  if digits ≠ [] ∧ digits.all Char.isDigit ∧ Nat.ofDigitChars 10 digits 0 ≤ max then
    some (Nat.ofDigitChars 10 digits 0)
  else none

/-- `str::parse` for the unsigned integers up to `max`. -/
def parseUnsigned (max : Nat) (s : List Char) : Option Nat := parseDigits max (unsignedDigits s)

variable {c separator : Char} {s t : List Char} {max n : Nat}

theorem trim_of_plain (plain : ∀ c ∈ s, isWhitespace c = false) : trim s = s := by
  have front : s.dropWhile isWhitespace = s := by
    cases s with
    | nil => rfl
    | cons c s => exact List.dropWhile_cons_of_neg (by simp [plain c])
  rw [trim, front, List.rdropWhile_eq_self_iff]
  intro nonempty
  simp [plain _ (List.getLast_mem nonempty)]

theorem splitOnce_append (absent : separator ∉ s) :
    splitOnce separator (s ++ separator :: t) = some (s, t) := by
  have before : ∀ c ∈ s, (c != separator) = true := by
    intro c hc
    rw [bne_iff_ne]
    rintro rfl
    exact absent hc
  rw [splitOnce, List.dropWhile_append_of_pos before,
    List.dropWhile_cons_of_neg (p := fun c => c != separator) (by simp),
    List.takeWhile_append_of_pos before,
    List.takeWhile_cons_of_neg (p := fun c => c != separator) (by simp), List.append_nil]

theorem drop_find (c : Char) (s : List Char) :
    s.drop ((find [c] s).getD s.length) = s.dropWhile fun x => x != c := by
  induction s with
  | nil => rfl
  | cons x s ih =>
    by_cases h : x = c
    · subst h
      have here : find [x] (x :: s) = some 0 := by simp [find]
      rw [here, List.dropWhile_cons_of_neg (by simp)]
      rfl
    · have later : find [c] (x :: s) = (find [c] s).map (· + 1) := by
        simp [find, Ne.symm h]
      rw [later, List.dropWhile_cons_of_pos (by simpa using h), ← ih]
      cases find [c] s with
      | none => rfl
      | some i => rfl

/-! ### White space between tokens -/

theorem splitWhitespace_of_plain (plain : ∀ c ∈ s, isWhitespace c = false) (nonempty : s ≠ []) :
    splitWhitespace s = [s] := by
  rw [splitWhitespace, List.splitOnP_eq_singleton plain]
  simp [nonempty]

theorem splitWhitespace_append (plain : ∀ c ∈ s, isWhitespace c = false) (nonempty : s ≠ [])
    (space : isWhitespace separator = true) :
    splitWhitespace (s ++ separator :: t) = s :: splitWhitespace t := by
  rw [splitWhitespace, List.splitOnP_append_cons_of_forall_mem plain separator space,
    List.filter_cons_of_pos (by simp [nonempty])]
  rfl

/-- Tokens that a space separates are the tokens read. -/
theorem splitWhitespace_intercalate {tokens : List (List Char)}
    (plain : ∀ token ∈ tokens, token ≠ [] ∧ ∀ c ∈ token, isWhitespace c = false) :
    splitWhitespace ([' '].intercalate tokens) = tokens := by
  induction tokens with
  | nil => rfl
  | cons token tokens ih =>
    obtain ⟨nonempty, hplain⟩ := plain token List.mem_cons_self
    have later := ih fun other hother => plain other (List.mem_cons_of_mem token hother)
    cases tokens with
    | nil =>
      rw [List.intercalate_singleton]
      exact splitWhitespace_of_plain hplain nonempty
    | cons next tokens =>
      rw [List.intercalate_cons_cons, List.append_assoc, List.singleton_append,
        splitWhitespace_append hplain nonempty rfl, later]

/-! ### Numbers -/

theorem unsignedDigits_of_ne (h : ∀ c ∈ s, c ≠ '+') : unsignedDigits s = s := by
  unfold unsignedDigits
  split
  · exact absurd rfl (h '+' List.mem_cons_self)
  · rfl

theorem mem_unsignedDigits (hc : c ∈ s) (h : c ≠ '+') : c ∈ unsignedDigits s := by
  unfold unsignedDigits
  split
  · exact (List.mem_cons.mp hc).resolve_left h
  · exact hc

/-- Nothing but digits is read, behind at most one sign. -/
theorem parseUnsigned_of_mem (hc : c ∈ s) (sign : c ≠ '+') (digit : c.isDigit = false) :
    parseUnsigned max s = none := by
  rw [parseUnsigned, parseDigits, if_neg]
  rintro ⟨-, digits, -⟩
  have := List.all_eq_true.mp digits c (mem_unsignedDigits hc sign)
  rw [digit] at this
  cases this

theorem parseUnsigned_toDigits (fits : n ≤ max) :
    parseUnsigned max (Nat.toDigits 10 n) = some n := by
  have digits : ∀ c ∈ Nat.toDigits 10 n, c.isDigit = true := fun c hc =>
    Nat.isDigit_of_mem_toDigits (by decide) (Nat.le_refl 10) hc
  have unsigned : unsignedDigits (Nat.toDigits 10 n) = Nat.toDigits 10 n := by
    apply unsignedDigits_of_ne
    rintro c hc rfl
    exact absurd (digits '+' hc) (by decide)
  rw [parseUnsigned, unsigned, parseDigits, Nat.ofDigitChars_ten_toDigits]
  exact if_pos ⟨Nat.toDigits_ne_nil, List.all_eq_true.mpr digits, fits⟩

theorem le_of_parseUnsigned (h : parseUnsigned max s = some n) : n ≤ max := by
  unfold parseUnsigned parseDigits at h
  split_ifs at h with read
  exact Option.some_inj.mp h ▸ read.2.2

theorem not_whitespace_of_digit (digit : c.isDigit = true) : isWhitespace c = false := by
  have bounds : 48 ≤ c.toNat ∧ c.toNat ≤ 57 := by
    simpa [Char.isDigit, UInt32.le_iff_toNat_le] using digit
  simp only [isWhitespace, Bool.or_eq_false_iff, Bool.and_eq_false_imp, beq_eq_false_iff_ne,
    decide_eq_true_eq, decide_eq_false_iff_not]
  omega

end RbatisCache.Text
