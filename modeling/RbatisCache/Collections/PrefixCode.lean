import Mathlib.Data.List.Infix

/-! Codes no word of which is a prefix of another one. A sequence of such words can be read in one
way only, and a sequence cut short is read as a sequence cut short. -/
namespace RbatisCache

/-- The words of the symbols that `admits` holds of are nonempty, and none is a prefix of
another one. -/
structure PrefixCode {α β : Type} (encode : α → List β) (admits : α → Prop) : Prop where
  nonempty : ∀ {a}, admits a → encode a ≠ []
  prefixFree : ∀ {a b}, admits a → admits b → encode a <+: encode b → a = b

namespace PrefixCode
variable {α β : Type} {encode header body : α → List β} {admits : α → Prop} {a b : α}
  {as bs : List α} {r s : List β}

/-- A header of fixed width that tells how long the body is makes a prefix code. -/
theorem of_header {width : Nat} (positive : 0 < width) (hwidth : ∀ a, (header a).length = width)
    (hlength : ∀ {a b}, admits a → admits b → header a = header b →
      (body a).length = (body b).length)
    (hinj : ∀ {a b}, header a = header b → body a = body b → a = b) :
    PrefixCode (fun a => header a ++ body a) admits where
  nonempty := by
    intro a _ hnil
    have hlen := congrArg List.length hnil
    rw [List.length_append, hwidth, List.length_nil] at hlen
    omega
  prefixFree := by
    intro a b ha hb hpre
    obtain ⟨rest, hrest⟩ := hpre
    rw [List.append_assoc] at hrest
    obtain ⟨hheader, htail⟩ := List.append_inj hrest ((hwidth a).trans (hwidth b).symm)
    -- the headers agree, so the bodies are of one length and nothing is left over
    have hbody : body a <+: body b := ⟨rest, htail⟩
    exact hinj hheader (hbody.eq_of_length (hlength ha hb hheader))

variable (code : PrefixCode encode admits)
include code

/-- What follows a word does not change which word is read. -/
theorem append_prefix (ha : admits a) (hb : admits b)
    (h : encode a ++ r <+: encode b ++ s) : a = b ∧ r <+: s := by
  have hab : a = b := by
    rcases List.prefix_or_prefix_of_prefix ((List.prefix_append _ r).trans h)
      (List.prefix_append (encode b) s) with hp | hp
    · exact code.prefixFree ha hb hp
    · exact (code.prefixFree hb ha hp).symm
  subst hab
  exact ⟨rfl, (List.prefix_append_right_inj _).mp h⟩

theorem eq_nil_of_flatMap (ha : ∀ a ∈ as, admits a) (h : as.flatMap encode = []) : as = [] := by
  cases as with
  | nil => rfl
  | cons a as =>
    rw [List.flatMap_cons, List.append_eq_nil_iff] at h
    exact absurd h.1 (code.nonempty (ha a List.mem_cons_self))

/-- One stream starts another one exactly if its symbols start the other one's. -/
theorem flatMap_prefix_iff (ha : ∀ a ∈ as, admits a) (hb : ∀ b ∈ bs, admits b) :
    as.flatMap encode <+: bs.flatMap encode ↔ as <+: bs := by
  induction as generalizing bs with
  | nil => simp only [List.flatMap_nil, List.nil_prefix]
  | cons a as ih =>
    cases bs with
    | nil =>
      constructor
      · intro h
        rw [code.eq_nil_of_flatMap ha (List.prefix_nil.mp h)]
      · intro h
        cases List.prefix_nil.mp h
    | cons b bs =>
      have rest := ih (fun x hx => ha x (List.mem_cons_of_mem a hx))
        (fun x hx => hb x (List.mem_cons_of_mem b hx))
      simp only [List.flatMap_cons, List.cons_prefix_cons]
      constructor
      · intro h
        obtain ⟨hab, ht⟩ := code.append_prefix (ha a List.mem_cons_self)
          (hb b List.mem_cons_self) h
        exact ⟨hab, rest.mp ht⟩
      · rintro ⟨rfl, ht⟩
        exact (List.prefix_append_right_inj _).mpr (rest.mpr ht)

/-- A stream has one reading. -/
theorem flatMap_inj (ha : ∀ a ∈ as, admits a) (hb : ∀ b ∈ bs, admits b)
    (h : as.flatMap encode = bs.flatMap encode) : as = bs := by
  have hab := (code.flatMap_prefix_iff ha hb).mp (h ▸ List.prefix_rfl)
  have hba := (code.flatMap_prefix_iff hb ha).mp (h ▸ List.prefix_rfl)
  exact hab.eq_of_length_le hba.length_le

end PrefixCode
end RbatisCache
