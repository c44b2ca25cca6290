import RbatisCache.Redis.ConfigurationBuilder
import RbatisCache.Text.Lines

/-! Which settings a properties text can make, and the text that makes them. Both builders read a text
line by line in the same way. -/
namespace RbatisCache.Redis.RedisConfigurationBuilder
open Text

/-- Text that a value can be. -/
def IsValue (value : String) : Prop := Trimmed value.toList ∧ '\n' ∉ value.toList

instance (value : String) : Decidable (IsValue value) := inferInstanceAs (Decidable (_ ∧ _))

/-- A setting that a line can make. -/
structure IsSetting (entry : String × String) : Prop where
  key : IsValue entry.1
  separator : '=' ∉ entry.1.toList
  comment : entry.1.toList.head? ≠ some '#'
  value : IsValue entry.2

def printSetting (entry : String × String) : String := entry.1 ++ "=" ++ entry.2

/-- A line for every setting. -/
def print (entries : List (String × String)) : String :=
  "\n".intercalate (entries.map printSetting)

variable {entry : String × String} {entries : List (String × String)}

private theorem toList_printSetting (entry : String × String) :
    (printSetting entry).toList = entry.1.toList ++ '=' :: entry.2.toList := by
  rw [printSetting, String.toList_append, String.toList_append, List.append_assoc]
  rfl

theorem IsSetting.trimmed (h : IsSetting entry) : Trimmed (printSetting entry).toList := by
  rw [toList_printSetting]
  exact h.key.1.append ((by decide : Trimmed ['=']).append h.value.1)

theorem IsSetting.onLine (h : IsSetting entry) : OnLine (printSetting entry).toList where
  nonempty := by
    rw [toList_printSetting]
    exact List.append_ne_nil_of_right_ne_nil _ (List.cons_ne_nil _ _)
  newline := by
    rw [toList_printSetting, List.mem_append, List.mem_cons, not_or, not_or]
    exact ⟨h.key.2, by decide, h.value.2⟩
  carriageReturn last := absurd (h.trimmed.2 '\r' last) (by decide)

theorem IsSetting.setting (h : IsSetting entry) :
    setting (printSetting entry).toList = some entry := by
  have ignored : ((printSetting entry).toList.isEmpty ||
      (printSetting entry).toList.head? == some '#') = false := by
    rw [toList_printSetting]
    have comment := h.comment
    cases start : entry.1.toList with
    | nil => rfl
    | cons c rest =>
      rw [start] at comment
      simpa using comment
  rw [RedisConfigurationBuilder.setting]
  simp only [h.trimmed.trim_eq, ignored, Bool.false_eq_true, if_false]
  rw [toList_printSetting, splitOnce_append h.separator, Option.map_some]
  simp only [h.key.1.trim_eq, h.value.1.trim_eq, String.ofList_toList]

/-- Settings that were printed are read back. -/
theorem settings_print (h : ∀ entry ∈ entries, IsSetting entry) :
    settings (print entries) = entries := by
  have whole : ∀ line ∈ (entries.map printSetting).map String.toList, OnLine line := by
    intro line hline
    obtain ⟨s, hs, rfl⟩ := List.mem_map.mp hline
    obtain ⟨entry, hentry, rfl⟩ := List.mem_map.mp hs
    exact (h entry hentry).onLine
  rw [settings, print, String.toList_intercalate]
  change List.filterMap setting (lines (['\n'].intercalate _)) = entries
  rw [lines_intercalate whole, List.map_map, List.filterMap_map]
  refine (List.filterMap_congr fun entry hentry => (h entry hentry).setting).trans ?_
  exact List.filterMap_some

private theorem isSetting_of_setting {line : List Char} (newline : '\n' ∉ line)
    (h : setting line = some entry) : IsSetting entry := by
  simp only [setting] at h
  split_ifs at h with ignored
  obtain ⟨⟨key, value⟩, split, rfl⟩ := Option.map_eq_some_iff.mp h
  obtain ⟨whole, absent⟩ := splitOnce_eq_some split
  have inside {c : Char} (hc : c ∈ key ∨ c ∈ value) : c ∈ line := by
    apply mem_of_mem_trim
    rw [whole, List.mem_append, List.mem_cons]
    exact hc.imp_right .inr
  constructor
  case key =>
    rw [IsValue, String.toList_ofList]
    exact ⟨trimmed_trim key, fun hc => newline (inside (.inl (mem_of_mem_trim hc)))⟩
  case separator =>
    rw [String.toList_ofList]
    exact fun hc => absent (mem_of_mem_trim hc)
  case value =>
    rw [IsValue, String.toList_ofList]
    exact ⟨trimmed_trim value, fun hc => newline (inside (.inr (mem_of_mem_trim hc)))⟩
  case comment =>
    rw [String.toList_ofList]
    intro comment
    cases key with
    | nil => cases comment
    | cons c rest =>
      have front : isWhitespace c = false := (trimmed_trim line).1 c (by rw [whole]; rfl)
      have kept : trim (c :: rest) <+: c :: rest := by
        rw [trim, List.dropWhile_cons_of_neg (by simp [front])]
        exact List.rdropWhile_prefix _ _
      obtain rfl : c = '#' := Option.some_inj.mp (mem_head?_of_front kept comment)
      exact ignored (by rw [whole]; rfl)

private theorem isValue_of_plain {value : String} (plain : ∀ c ∈ value.toList, isWhitespace c = false) :
    IsValue value :=
  ⟨trimmed_of_plain plain, fun newline => absurd (plain '\n' newline) (by decide)⟩

theorem isValue_nat (n : Nat) : IsValue (toString n) := by
  apply isValue_of_plain
  intro c hc
  have digits : (toString n).toList = Nat.toDigits 10 n := Nat.toList_repr
  rw [digits] at hc
  exact not_whitespace_of_digit (Nat.isDigit_of_mem_toDigits (by decide) (Nat.le_refl 10) hc)

theorem isValue_bool (b : Bool) : IsValue (toString b) := by
  cases b <;> decide

/-- What is read can be printed. -/
theorem isSetting_of_mem_settings {text : String} (h : entry ∈ settings text) : IsSetting entry := by
  obtain ⟨line, hline, made⟩ := List.mem_filterMap.mp h
  exact isSetting_of_setting (newline_not_mem_of_mem_lines hline) made

/-- What every setting keeps holds of what is made of a text. -/
theorem foldl_settings {σ : Type} {step : σ → String × String → σ} {P : σ → Prop} {s : σ} (start : P s)
    (keeps : ∀ s entry, P s → IsSetting entry → P (step s entry)) (text : String) :
    P ((settings text).foldl step s) :=
  List.foldlRecOn (settings text) step start fun s kept entry h =>
    keeps s entry kept (isSetting_of_mem_settings h)

end RbatisCache.Redis.RedisConfigurationBuilder
