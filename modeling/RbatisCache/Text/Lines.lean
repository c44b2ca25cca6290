import RbatisCache.Text

/-! Text that is taken apart by lines, separators and the white space around them: what the pieces are
like, and that such pieces are found again in the text they were put together to. -/
namespace RbatisCache.Text
variable {c separator : Char} {s t : List Char}

/-! ### Trimmed text -/

/-- No white space at either end. -/
def Trimmed (s : List Char) : Prop :=
  (∀ c ∈ s.head?, isWhitespace c = false) ∧ ∀ c ∈ s.getLast?, isWhitespace c = false

-- Not by instance search, which may go through all characters.
instance (s : List Char) : Decidable (Trimmed s) :=
  @instDecidableAnd _ _ (Option.decidableForallMem s.head?) (Option.decidableForallMem s.getLast?)

theorem mem_head?_of_front {before : List Char} (h : before <+: s) (hc : c ∈ before.head?) :
    c ∈ s.head? := by
  obtain ⟨rest, rfl⟩ := h
  cases before with
  | nil => cases hc
  | cons d before => exact hc

theorem trimmed_trim (s : List Char) : Trimmed (trim s) := by
  constructor
  · intro c hc
    have front := List.head?_dropWhile_not isWhitespace s
    rw [Option.mem_def.mp (mem_head?_of_front (List.rdropWhile_prefix _ _) hc)] at front
    exact front
  · intro c hc
    have nonempty : trim s ≠ [] := by
      intro empty
      rw [empty] at hc
      cases hc
    have last := List.rdropWhile_last_not _ _ nonempty
    rw [Option.mem_def, List.getLast?_eq_getLast_of_ne_nil nonempty, Option.some_inj] at hc
    exact Bool.eq_false_iff.mpr (hc ▸ last)

theorem Trimmed.trim_eq (trimmed : Trimmed s) : trim s = s := by
  have front : s.dropWhile isWhitespace = s := by
    cases s with
    | nil => rfl
    | cons c s => exact List.dropWhile_cons_of_neg (by simp [trimmed.1 c rfl])
  rw [trim, front, List.rdropWhile_eq_self_iff]
  intro nonempty
  simp [trimmed.2 _ (List.getLast?_eq_getLast_of_ne_nil nonempty)]

theorem trimmed_of_plain (plain : ∀ c ∈ s, isWhitespace c = false) : Trimmed s :=
  ⟨fun c hc => plain c (List.mem_of_mem_head? hc), fun c hc => plain c (List.mem_of_mem_getLast? hc)⟩

theorem Trimmed.append (front : Trimmed s) (back : Trimmed t) : Trimmed (s ++ t) := by
  constructor
  · cases s with
    | nil => exact back.1
    | cons c s => exact front.1
  · cases t with
    | nil =>
      rw [List.append_nil]
      exact front.2
    | cons c t =>
      rw [List.getLast?_append_of_ne_nil _ (List.cons_ne_nil c t)]
      exact back.2

theorem mem_of_mem_trim (hc : c ∈ trim s) : c ∈ s :=
  (List.dropWhile_sublist _).subset ((List.rdropWhile_prefix _ _).subset hc)

/-! ### Separators -/

theorem splitOnce_eq_some {before after : List Char}
    (h : splitOnce separator s = some (before, after)) :
    s = before ++ separator :: after ∧ separator ∉ before := by
  unfold splitOnce at h
  split at h
  · cases h
  · next first rest found =>
    cases h
    have matched : first = separator := by
      have head := List.head?_dropWhile_not (· != separator) s
      rw [found] at head
      simpa using head
    refine ⟨?_, fun inside => by simpa using List.mem_takeWhile_imp inside⟩
    calc s = s.takeWhile (· != separator) ++ s.dropWhile (· != separator) :=
          List.takeWhile_append_dropWhile.symm
      _ = s.takeWhile (· != separator) ++ separator :: after := by rw [found, matched]

/-- Where the text is split there is nothing left to split. -/
theorem not_of_mem_splitOnP {p : Char → Bool} {piece : List Char} (h : piece ∈ s.splitOnP p) :
    ∀ c ∈ piece, p c = false := by
  suffices behind : ∀ front : List Char, (∀ c ∈ front, p c = false) →
      piece ∈ (front ++ s).splitOnP p → ∀ c ∈ piece, p c = false from
    behind [] (fun _ => nofun) h
  clear h
  induction s with
  | nil =>
    intro front plain h
    rw [List.append_nil, List.splitOnP_eq_singleton plain, List.mem_singleton] at h
    rwa [h]
  | cons x s ih =>
    intro front plain h
    cases hx : p x with
    | true =>
      rw [List.splitOnP_append_cons_of_forall_mem plain x hx, List.mem_cons] at h
      rcases h with rfl | later
      · exact plain
      · exact ih [] (fun _ => nofun) later
    | false =>
      rw [← List.singleton_append, ← List.append_assoc] at h
      refine ih (front ++ [x]) (fun c hc => ?_) h
      rcases List.mem_append.mp hc with hc | hc
      · exact plain c hc
      · rwa [List.mem_singleton.mp hc]

theorem plain_of_mem_splitWhitespace {token : List Char} (h : token ∈ splitWhitespace s) :
    token ≠ [] ∧ ∀ c ∈ token, isWhitespace c = false := by
  obtain ⟨piece, nonempty⟩ := List.mem_filter.mp h
  refine ⟨?_, not_of_mem_splitOnP piece⟩
  rintro rfl
  cases nonempty

/-! ### Tokens with spaces between them -/

section
variable {token : List Char} {tokens : List (List Char)}

theorem mem_intercalate_space
    (plain : ∀ token ∈ tokens, token ≠ [] ∧ ∀ c ∈ token, isWhitespace c = false)
    (hc : c ∈ [' '].intercalate tokens) : c = ' ' ∨ isWhitespace c = false := by
  induction tokens with
  | nil => cases hc
  | cons token tokens ih =>
    have first := (plain token List.mem_cons_self).2 c
    have later := ih fun other hother => plain other (List.mem_cons_of_mem token hother)
    cases tokens with
    | nil =>
      rw [List.intercalate_singleton] at hc
      exact .inr (first hc)
    | cons next tokens =>
      rw [List.intercalate_cons_cons, List.append_assoc, List.singleton_append, List.mem_append,
        List.mem_cons] at hc
      rcases hc with hc | rfl | hc
      · exact .inr (first hc)
      · exact .inl rfl
      · exact later hc

theorem getLast?_intercalate_space
    (plain : ∀ token ∈ tokens, token ≠ [] ∧ ∀ c ∈ token, isWhitespace c = false)
    (hc : c ∈ ([' '].intercalate tokens).getLast?) : isWhitespace c = false := by
  induction tokens with
  | nil => cases hc
  | cons token tokens ih =>
    have later := ih fun other hother => plain other (List.mem_cons_of_mem token hother)
    cases tokens with
    | nil =>
      rw [List.intercalate_singleton] at hc
      exact (plain token List.mem_cons_self).2 c (List.mem_of_mem_getLast? hc)
    | cons next tokens =>
      have nonempty : [' '].intercalate (next :: tokens) ≠ [] := by
        have first := (plain next (List.mem_cons_of_mem _ List.mem_cons_self)).1
        cases tokens with
        | nil => rwa [List.intercalate_singleton]
        | cons after tokens =>
          rw [List.intercalate_cons_cons, List.append_assoc]
          exact List.append_ne_nil_of_left_ne_nil first _
      rw [List.intercalate_cons_cons, List.getLast?_append_of_ne_nil _ nonempty] at hc
      exact later hc

theorem trimmed_intercalate_space
    (plain : ∀ token ∈ tokens, token ≠ [] ∧ ∀ c ∈ token, isWhitespace c = false) :
    Trimmed ([' '].intercalate tokens) := by
  refine ⟨fun c hc => ?_, fun c hc => getLast?_intercalate_space plain hc⟩
  cases tokens with
  | nil => cases hc
  | cons token tokens =>
    obtain ⟨nonempty, hplain⟩ := plain token List.mem_cons_self
    apply hplain
    cases tokens with
    | nil =>
      rw [List.intercalate_singleton] at hc
      exact List.mem_of_mem_head? hc
    | cons next tokens =>
      rw [List.intercalate_cons_cons, List.append_assoc, List.head?_append_of_ne_nil _ nonempty] at hc
      exact List.mem_of_mem_head? hc

end

/-! ### Lines -/

theorem newline_not_mem_of_mem_lines {line : List Char} (h : line ∈ lines s) : '\n' ∉ line := by
  have split {piece : List Char} (h : piece ∈ s.splitOn '\n') : '\n' ∉ piece := by
    intro inside
    rw [List.splitOn_eq_splitOnP] at h
    simpa using not_of_mem_splitOnP h '\n' inside
  rcases List.mem_append.mp h with ended | last
  · obtain ⟨piece, hpiece, rfl⟩ := List.mem_map.mp ended
    have absent := split ((List.dropLast_sublist _).subset hpiece)
    unfold stripCarriageReturn
    split_ifs
    · exact fun inside => absent ((List.dropLast_sublist _).subset inside)
    · exact absent
  · exact split (List.mem_of_mem_getLast? (Option.mem_toList.mp (List.mem_filter.mp last).1))

/-- Text that can stand on a line. -/
structure OnLine (s : List Char) : Prop where
  nonempty : s ≠ []
  newline : '\n' ∉ s
  carriageReturn : s.getLast? ≠ some '\r'

/-- Lines that newlines separate are the lines read. -/
theorem lines_intercalate {ls : List (List Char)} (whole : ∀ line ∈ ls, OnLine line) :
    lines (['\n'].intercalate ls) = ls := by
  by_cases some_line : ls = []
  · subst some_line
    rfl
  · have ended : ls.dropLast.map stripCarriageReturn = ls.dropLast := by
      refine (List.map_congr_left fun line hline => ?_).trans (List.map_id _)
      exact if_neg (whole line ((List.dropLast_sublist _).subset hline)).carriageReturn
    have last : ls.getLast?.toList.filter (fun line => !line.isEmpty) = [ls.getLast some_line] := by
      have nonempty := (whole _ (List.getLast_mem some_line)).nonempty
      rw [List.getLast?_eq_getLast_of_ne_nil some_line]
      exact List.filter_cons_of_pos (by simpa using nonempty)
    rw [lines, List.splitOn_intercalate '\n' (fun line h => (whole line h).newline) some_line, ended,
      last, List.dropLast_append_getLast]

end RbatisCache.Text
