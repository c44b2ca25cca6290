import RbatisCache.Spi.Primitives
import RbatisCache.Text

/-! Lists of server addresses as text (`inet_socket_address_list_property_setter.rs`). They are printed
with commas between them; one parser reads that form, the other one reads addresses that white space
separates. Both drop what they cannot read. -/
namespace RbatisCache.Memcached
open Text

abbrev AddressList := List (String × UInt16)

namespace AddressList

def displayAddress (address : String × UInt16) : String :=
  address.1 ++ ":" ++ toString address.2

/-- `fmt::Display for AddressList`. -/
def display (list : AddressList) : String := ",".intercalate (list.map displayAddress)

/-- How both parsers read a token. -/
def parseAddress (token : List Char) : Option (String × UInt16) := do
  let (host, port) ← splitOnce ':' token
  let port ← parseUnsigned 65535 port
  return (String.ofList host, .ofNat port)

/-- `FromStr for AddressList`. -/
def fromStr (input : String) : Except String AddressList :=
  .ok ((input.toList.splitOn ',').filterMap fun token => parseAddress (trim token))

end AddressList

def parseAddressList (input : String) : AddressList :=
  (splitWhitespace input.toList).filterMap AddressList.parseAddress

namespace AddressList

/-- The form that `parse_address_list` is documented to read. -/
def displaySpaced (list : AddressList) : String := " ".intercalate (list.map displayAddress)

/-- No white space, no comma and no colon. -/
def PlainHost (host : String) : Prop :=
  ∀ c ∈ host.toList, isWhitespace c = false ∧ c ≠ ',' ∧ c ≠ ':'

instance (host : String) : Decidable (PlainHost host) :=
  List.decidableBAll _ host.toList

variable {list : AddressList} {address first second : String × UInt16} {rest : AddressList}

theorem toList_displayAddress (address : String × UInt16) :
    (displayAddress address).toList =
      address.1.toList ++ ':' :: Nat.toDigits 10 address.2.toNat := by
  have port : (toString address.2).toList = Nat.toDigits 10 address.2.toNat := Nat.toList_repr
  rw [displayAddress, String.toList_append, String.toList_append, port, List.append_assoc]
  rfl

theorem displayAddress_ne_nil (address : String × UInt16) :
    (displayAddress address).toList ≠ [] := by
  rw [toList_displayAddress]
  exact List.append_ne_nil_of_right_ne_nil _ (List.cons_ne_nil _ _)

private theorem mem_displayAddress (plain : PlainHost address.1) {c : Char}
    (hc : c ∈ (displayAddress address).toList) : isWhitespace c = false ∧ c ≠ ',' := by
  rw [toList_displayAddress, List.mem_append, List.mem_cons] at hc
  rcases hc with host | rfl | port
  · exact ⟨(plain c host).1, (plain c host).2.1⟩
  · decide
  · have digit : c.isDigit = true := Nat.isDigit_of_mem_toDigits (by decide) (Nat.le_refl 10) port
    refine ⟨not_whitespace_of_digit digit, ?_⟩
    rintro rfl
    cases digit

/-- An address that was printed is read back. -/
theorem parseAddress_displayAddress (plain : PlainHost address.1) :
    parseAddress (displayAddress address).toList = some address := by
  have colon : ':' ∉ address.1.toList := fun h => (plain ':' h).2.2 rfl
  have fits : address.2.toNat ≤ 65535 := Nat.le_of_lt_succ address.2.toNat_lt
  rw [toList_displayAddress, parseAddress, splitOnce_append colon]
  simp only [Option.bind_eq_bind, Option.bind_some, parseUnsigned_toDigits fits]
  rw [String.ofList_toList, UInt16.ofNat_toNat]
  rfl

theorem filterMap_displayAddress {read : List Char → Option (String × UInt16)}
    (h : ∀ address ∈ list, read (displayAddress address).toList = some address) :
    ((list.map displayAddress).map String.toList).filterMap read = list := by
  induction list with
  | nil => rfl
  | cons address list ih =>
    rw [List.map_cons, List.map_cons,
      List.filterMap_cons_some (h address List.mem_cons_self),
      ih fun other hother => h other (List.mem_cons_of_mem address hother)]

/-- Printing and reading with commas is the identity. -/
theorem fromStr_display (plain : ∀ address ∈ list, PlainHost address.1) :
    fromStr (display list) = .ok list := by
  cases list with
  | nil => rfl
  | cons first rest =>
    have commas : ∀ token ∈ ((first :: rest).map displayAddress).map String.toList, ',' ∉ token := by
      intro token htoken
      obtain ⟨s, hs, rfl⟩ := List.mem_map.mp htoken
      obtain ⟨address, ha, rfl⟩ := List.mem_map.mp hs
      exact fun hc => (mem_displayAddress (plain address ha) hc).2 rfl
    rw [fromStr, display, String.toList_intercalate]
    change Except.ok (((([','] : List Char).intercalate _).splitOn ',').filterMap _) = _
    rw [List.splitOn_intercalate ',' commas (List.cons_ne_nil _ _)]
    refine congrArg Except.ok (filterMap_displayAddress fun address ha => ?_)
    rw [trim_of_plain fun c hc => (mem_displayAddress (plain address ha) hc).1]
    exact parseAddress_displayAddress (plain address ha)

/-- Printing and reading with spaces is the identity. -/
theorem parseAddressList_displaySpaced (plain : ∀ address ∈ list, PlainHost address.1) :
    parseAddressList (displaySpaced list) = list := by
  rw [parseAddressList, displaySpaced, String.toList_intercalate]
  change List.filterMap _ (splitWhitespace ([' '].intercalate _)) = _
  rw [splitWhitespace_intercalate]
  · exact filterMap_displayAddress fun address ha => parseAddress_displayAddress (plain address ha)
  · intro token htoken
    obtain ⟨s, hs, rfl⟩ := List.mem_map.mp htoken
    obtain ⟨address, ha, rfl⟩ := List.mem_map.mp hs
    exact ⟨displayAddress_ne_nil address, fun c hc => (mem_displayAddress (plain address ha) hc).1⟩

/-! ### The printed form read as white-space-separated -/

private theorem toList_display_cons_cons (first second : String × UInt16) (rest : AddressList) :
    (display (first :: second :: rest)).toList =
      (displayAddress first).toList ++ ',' :: (display (second :: rest)).toList := by
  rw [display, display, String.toList_intercalate, String.toList_intercalate]
  simp only [List.map_cons, List.intercalate_cons_cons, List.append_assoc]
  rfl

private theorem mem_display (plain : ∀ address ∈ list, PlainHost address.1) {c : Char}
    (hc : c ∈ (display list).toList) : isWhitespace c = false := by
  induction list with
  | nil => cases hc
  | cons first rest ih =>
    have head : ∀ c ∈ (displayAddress first).toList, isWhitespace c = false := fun c hc =>
      (mem_displayAddress (plain first List.mem_cons_self) hc).1
    have later := ih fun other hother => plain other (List.mem_cons_of_mem first hother)
    cases rest with
    | nil => exact head c (by simpa [display] using hc)
    | cons second rest =>
      rw [toList_display_cons_cons, List.mem_append, List.mem_cons] at hc
      rcases hc with hc | rfl | hc
      · exact head c hc
      · rfl
      · exact later hc

/-- One address is printed without a comma. -/
theorem parseAddressList_display_short (plain : ∀ address ∈ list, PlainHost address.1)
    (short : list.length ≤ 1) : parseAddressList (display list) = list := by
  have same : display list = displaySpaced list := by
    cases list with
    | nil => rfl
    | cons first rest =>
      cases rest with
      | nil => rfl
      | cons second rest => simp at short
  rw [same]
  exact parseAddressList_displaySpaced plain

/-- Several addresses with commas between them are one token, whose port is no number. -/
theorem parseAddressList_display_long
    (plain : ∀ address ∈ first :: second :: rest, PlainHost address.1) :
    parseAddressList (display (first :: second :: rest)) = [] := by
  have one_token : splitWhitespace (display (first :: second :: rest)).toList =
      [(display (first :: second :: rest)).toList] := by
    apply splitWhitespace_of_plain fun c hc => mem_display plain hc
    rw [toList_display_cons_cons]
    exact List.append_ne_nil_of_right_ne_nil _ (List.cons_ne_nil _ _)
  have colon : ':' ∉ first.1.toList := fun h => (plain first List.mem_cons_self ':' h).2.2 rfl
  have unread : parseAddress (display (first :: second :: rest)).toList = none := by
    rw [toList_display_cons_cons, toList_displayAddress, List.append_assoc, List.cons_append,
      parseAddress, splitOnce_append colon]
    simp only [Option.bind_eq_bind, Option.bind_some]
    rw [parseUnsigned_of_mem (c := ',') (by simp) (by decide) rfl]
    rfl
  rw [parseAddressList, one_token, List.filterMap_cons_none unread]
  rfl

/-- What is printed is read back by the parser of the same form, and by the other parser up to one
address; that one reads back addresses with spaces between them, and nothing at all of several
with commas. -/
theorem addresses_read_back (list : AddressList)
    (plain : ∀ address ∈ list, PlainHost address.1) :
    fromStr (display list) = .ok list ∧ parseAddressList (displaySpaced list) = list ∧
    (list.length ≤ 1 → parseAddressList (display list) = list) ∧
    (2 ≤ list.length → parseAddressList (display list) = []) := by
  refine ⟨fromStr_display plain, parseAddressList_displaySpaced plain,
    parseAddressList_display_short plain, fun long => ?_⟩
  cases list with
  | nil => cases long
  | cons first rest =>
    cases rest with
    | nil => simp at long
    | cons second rest => exact parseAddressList_display_long plain

/-- Two servers are read back as they were printed. -/
theorem two_servers_read_back :
    fromStr "cache-a:11211,cache-b:11212" = .ok [("cache-a", 11211), ("cache-b", 11212)] :=
  (addresses_read_back [("cache-a", 11211), ("cache-b", 11212)] (by decide)).1

/-- The builder's parser reads no server in the printed form of two. -/
theorem two_servers_dropped :
    display [("cache-a", 11211), ("cache-b", 11212)] = "cache-a:11211,cache-b:11212" ∧
    parseAddressList "cache-a:11211,cache-b:11212" = [] ∧
    ¬ ∀ list : AddressList, (∀ address ∈ list, PlainHost address.1) →
      fromStr (display list) = .ok list ∧ parseAddressList (display list) = list := by
  refine ⟨by decide, by decide, fun agree => ?_⟩
  have both := agree [("cache-a", 11211), ("cache-b", 11212)] (by decide)
  exact absurd both.2 (by decide)

end AddressList
end RbatisCache.Memcached
