import RbatisCache.MessagePack.Message

/-! The values of `rbs` and their way through MessagePack, which keeps neither the width of an integer
nor the name of an extension. -/
namespace RbatisCache.Rbs
open MessagePack

/-- `rbs::Value`; floats are their bits. -/
inductive Value where
  | null
  | bool (b : Bool)
  | i32 (i : Int32)
  | i64 (i : Int64)
  | u32 (n : UInt32)
  | u64 (n : UInt64)
  | f32 (bits : UInt32)
  | f64 (bits : UInt64)
  | string (s : String)
  | binary (bytes : List UInt8)
  | array (items : List Value)
  | map (entries : List (Value × Value))
  | ext (name : String) (value : Value)

/-- What the serialization leaves to its crates. -/
structure Serde where
  /-- The error with which a message is refused by the writer. -/
  refuses : Message → Option String
  depthLimit : Nat
  display : DecodeError → String
  /-- What becomes of an integer that comes with a sign. -/
  visitSigned : Int64 → Value
  visitSigned_keeps : ∀ i, visitSigned i = .i64 i ∨
    ∃ j : Int32, j.toInt64 = i ∧ visitSigned i = .i32 j
  /-- The equality of keys in a `ValueMap`. -/
  sameKey : Value → Value → Bool

/-- `rmp_serde::to_vec_named` on what a serializer has made. -/
def Serde.write (S : Serde) (m : Message) : Except String (List UInt8) :=
  match S.refuses m with
  | some e => .error e
  | none => .ok m.encode

namespace Value

mutual
/-- `Serialize for Value` over `rmp_serde`. -/
def serialize : Value → Message
  | .null => .nil
  | .bool b => .boolean b
  | .i32 i => .integer i.toInt64
  | .i64 i => .integer i
  | .u32 n => .unsigned n.toUInt64
  | .u64 n => .unsigned n
  | .f32 bits => .float32 bits
  | .f64 bits => .float64 bits
  | .string s => .str s
  | .binary bytes => .bin bytes
  | .array items => .array (serializeItems items)
  | .map entries => .map (serializeEntries entries)
  | .ext _ value => serialize value

def serializeItems : List Value → List Message
  | [] => []
  | item :: items => serialize item :: serializeItems items

def serializeEntries : List (Value × Value) → List (Message × Message)
  | [] => []
  | (key, value) :: entries => (serialize key, serialize value) :: serializeEntries entries
end

section
variable (S : Serde)

/-- `ValueMap::insert`. -/
def insert (entries : List (Value × Value)) (entry : Value × Value) : List (Value × Value) :=
  if entries.any fun e => S.sameKey e.1 entry.1 then
    entries.map fun e => if S.sameKey e.1 entry.1 then (e.1, entry.2) else e
  else entries ++ [entry]

/-- `Deserialize for Value`. -/
def deserialize : Message → Value :=
  Message.fold
    (fun
      | .nil => .null
      | .boolean b => .bool b
      | .unsigned n => .u64 n
      | .signed i => S.visitSigned i
      | .float32 bits => .f32 bits
      | .float64 bits => .f64 bits
      | .str s => .string s
      | .bin bytes => .binary bytes
      | .array _ | .map _ => .null)
    (fun items => .array items)
    (fun entries => .map (entries.foldl (insert S) []))

/-- No key occurs twice. -/
def Distinct (entries : List (Value × Value)) : Prop :=
  entries.Pairwise fun a b => S.sameKey a.1 b.1 = false

/-- The values that come back as they were. -/
inductive Faithful : Value → Prop
  | null : Faithful .null
  | bool (b : Bool) : Faithful (.bool b)
  | i32 {i : Int32} (negative : i.toInt < 0) (kept : S.visitSigned i.toInt64 = .i32 i) :
    Faithful (.i32 i)
  | i64 {i : Int64} (negative : i.toInt < 0) (kept : S.visitSigned i = .i64 i) : Faithful (.i64 i)
  | u64 (n : UInt64) : Faithful (.u64 n)
  | f32 (bits : UInt32) : Faithful (.f32 bits)
  | f64 (bits : UInt64) : Faithful (.f64 bits)
  | string {s : String} (short : (Message.utf8 s).length < 2 ^ 32) : Faithful (.string s)
  | binary {bytes : List UInt8} (short : bytes.length < 2 ^ 32) : Faithful (.binary bytes)
  | array {items : List Value} (short : items.length < 2 ^ 32) (all : ∀ v ∈ items, Faithful v) :
    Faithful (.array items)
  | map {entries : List (Value × Value)} (short : entries.length < 2 ^ 32)
    (distinct : Distinct S entries) (keys : ∀ e ∈ entries, Faithful e.1)
    (values : ∀ e ∈ entries, Faithful e.2) : Faithful (.map entries)

end

private theorem serializeItems_eq (items : List Value) :
    serializeItems items = items.map serialize := by
  induction items with
  | nil => rfl
  | cons item items ih => rw [serializeItems, List.map_cons, ih]

private theorem serializeEntries_eq (entries : List (Value × Value)) :
    serializeEntries entries = entries.map fun e => (serialize e.1, serialize e.2) := by
  induction entries with
  | nil => rfl
  | cons entry entries ih => rw [serializeEntries, List.map_cons, ih]

theorem serialize_array (items : List Value) :
    serialize (.array items) = .array (items.map serialize) := by
  rw [serialize, serializeItems_eq]

theorem serialize_map (entries : List (Value × Value)) :
    serialize (.map entries) = .map (entries.map fun e => (serialize e.1, serialize e.2)) := by
  rw [serialize, serializeEntries_eq]

/-- Induction along the tree. -/
theorem induction {P : Value → Prop} (null : P .null) (bool : ∀ b, P (.bool b))
    (i32 : ∀ i, P (.i32 i)) (i64 : ∀ i, P (.i64 i)) (u32 : ∀ n, P (.u32 n)) (u64 : ∀ n, P (.u64 n))
    (f32 : ∀ bits, P (.f32 bits)) (f64 : ∀ bits, P (.f64 bits)) (string : ∀ s, P (.string s))
    (binary : ∀ bytes, P (.binary bytes))
    (array : ∀ items, (∀ v ∈ items, P v) → P (.array items))
    (map : ∀ entries, (∀ e ∈ entries, P e.1 ∧ P e.2) → P (.map entries))
    (ext : ∀ name value, P value → P (.ext name value)) (v : Value) : P v :=
  @Value.rec P (fun items => ∀ v ∈ items, P v) (fun entries => ∀ e ∈ entries, P e.1 ∧ P e.2)
    (fun e => P e.1 ∧ P e.2) null bool i32 i64 u32 u64 f32 f64 string binary array map ext nofun
    (fun _ _ hv hs => List.forall_mem_cons.mpr ⟨hv, hs⟩) nofun
    (fun _ _ he hs => List.forall_mem_cons.mpr ⟨he, hs⟩) (fun _ _ hk hv => ⟨hk, hv⟩) v

/-! ### Equality -/

mutual
def same : Value → Value → Bool
  | .null, .null => true
  | .bool a, .bool b => a == b
  | .i32 a, .i32 b => a == b
  | .i64 a, .i64 b => a == b
  | .u32 a, .u32 b => a == b
  | .u64 a, .u64 b => a == b
  | .f32 a, .f32 b => a == b
  | .f64 a, .f64 b => a == b
  | .string a, .string b => a == b
  | .binary a, .binary b => a == b
  | .array as, .array bs => sameItems as bs
  | .map as, .map bs => sameEntries as bs
  | .ext m a, .ext n b => m == n && same a b
  | _, _ => false

def sameItems : List Value → List Value → Bool
  | [], [] => true
  | a :: as, b :: bs => same a b && sameItems as bs
  | _, _ => false

def sameEntries : List (Value × Value) → List (Value × Value) → Bool
  | [], [] => true
  | (k, a) :: as, (l, b) :: bs => same k l && same a b && sameEntries as bs
  | _, _ => false
end

private theorem sameItems_iff {as bs : List Value} (h : ∀ a ∈ as, ∀ b, same a b = true ↔ a = b) :
    sameItems as bs = true ↔ as = bs := by
  induction as generalizing bs with
  | nil => cases bs <;> simp [sameItems]
  | cons a as ih =>
    obtain ⟨first, rest⟩ := List.forall_mem_cons.mp h
    cases bs with
    | nil => simp [sameItems]
    | cons b bs => simp [sameItems, first b, ih rest]

private theorem sameEntries_iff {as bs : List (Value × Value)}
    (h : ∀ a ∈ as, (∀ b, same a.1 b = true ↔ a.1 = b) ∧ ∀ b, same a.2 b = true ↔ a.2 = b) :
    sameEntries as bs = true ↔ as = bs := by
  induction as generalizing bs with
  | nil => cases bs <;> simp [sameEntries]
  | cons a as ih =>
    obtain ⟨first, rest⟩ := List.forall_mem_cons.mp h
    cases bs with
    | nil => simp [sameEntries]
    | cons b bs => simp [sameEntries, first.1 b.1, first.2 b.2, ih rest, Prod.ext_iff]

private theorem same_iff (a : Value) : ∀ b, same a b = true ↔ a = b := by
  induction a using induction with
  | array items ih =>
    intro b
    cases b with
    | array items' => simp [same, sameItems_iff ih]
    | _ => simp [same]
  | map entries ih =>
    intro b
    cases b with
    | map entries' => simp [same, sameEntries_iff ih]
    | _ => simp [same]
  | ext name value ih =>
    intro b
    cases b with
    | ext name' value' => simp [same, ih]
    | _ => simp [same]
  | _ =>
    intro b
    cases b <;> simp [same]

instance : DecidableEq Value := fun a b => decidable_of_iff _ (same_iff a b)

section
variable {S : Serde} {v w : Value} {m : Message}

private theorem deserialize_array (items : List Message) :
    deserialize S (.array items) = .array (items.map (deserialize S)) := by
  rw [deserialize, Message.fold_array]

private theorem deserialize_map (entries : List (Message × Message)) :
    deserialize S (.map entries) =
      .map ((entries.map fun e => (deserialize S e.1, deserialize S e.2)).foldl (insert S) []) := by
  rw [deserialize, Message.fold_map]

/-! ### Maps -/

variable {entries acc : List (Value × Value)} {entry : Value × Value} {P Q : Value → Prop}

private theorem distinct_insert (h : Distinct S entries) : Distinct S (insert S entries entry) := by
  unfold insert
  split
  · apply List.pairwise_map.mpr
    apply h.imp
    intro a b hab
    -- an insertion keeps the keys
    split <;> split <;> exact hab
  · next absent =>
    apply List.pairwise_append.mpr
    refine ⟨h, List.pairwise_singleton _ _, ?_⟩
    intro a ha b hb
    rw [List.mem_singleton.mp hb]
    simp only [List.any_eq_true, not_exists, not_and, Bool.not_eq_true] at absent
    exact absent a ha

private theorem length_insert_le : (insert S entries entry).length ≤ entries.length + 1 := by
  unfold insert
  split
  · rw [List.length_map]
    omega
  · rw [List.length_append, List.length_singleton]

private theorem forall_insert (h : ∀ e ∈ entries, P e.1 ∧ Q e.2) (he : P entry.1 ∧ Q entry.2) :
    ∀ e ∈ insert S entries entry, P e.1 ∧ Q e.2 := by
  unfold insert
  split
  · intro e hm
    obtain ⟨old, ho, rfl⟩ := List.mem_map.mp hm
    split
    · exact ⟨(h old ho).1, he.2⟩
    · exact h old ho
  · intro e hm
    rcases List.mem_append.mp hm with hm | hm
    · exact h e hm
    · rw [List.mem_singleton.mp hm]
      exact he

private theorem distinct_foldl (h : Distinct S acc) : Distinct S (entries.foldl (insert S) acc) := by
  induction entries generalizing acc with
  | nil => exact h
  | cons entry entries ih => exact ih (distinct_insert h)

private theorem length_foldl_le :
    (entries.foldl (insert S) acc).length ≤ acc.length + entries.length := by
  induction entries generalizing acc with
  | nil => exact Nat.le_refl _
  | cons entry entries ih =>
    have step : (insert S acc entry).length ≤ acc.length + 1 := length_insert_le
    rw [List.foldl_cons, List.length_cons]
    exact ih.trans (by omega)

private theorem forall_foldl (h : ∀ e ∈ acc, P e.1 ∧ Q e.2) (he : ∀ e ∈ entries, P e.1 ∧ Q e.2) :
    ∀ e ∈ entries.foldl (insert S) acc, P e.1 ∧ Q e.2 := by
  induction entries generalizing acc with
  | nil => exact h
  | cons entry entries ih =>
    obtain ⟨first, rest⟩ := List.forall_mem_cons.mp he
    exact ih (forall_insert h first) rest

/-- Distinct keys are inserted one after the other. -/
theorem foldl_of_distinct (h : Distinct S (acc ++ entries)) :
    entries.foldl (insert S) acc = acc ++ entries := by
  induction entries generalizing acc with
  | nil => exact (List.append_nil _).symm
  | cons entry entries ih =>
    have absent : insert S acc entry = acc ++ [entry] := by
      unfold insert
      rw [if_neg]
      simp only [List.any_eq_true, not_exists, not_and, Bool.not_eq_true]
      intro e he
      exact (List.pairwise_append.mp h).2.2 e he entry List.mem_cons_self
    rw [List.append_cons] at h ⊢
    rw [List.foldl_cons, absent, ih h]

/-! ### The way there and back -/

private theorem integer_of_neg {i : Int64} (h : i.toInt < 0) : Message.integer i = .signed i := by
  rw [Message.integer, if_neg (by omega)]

private theorem fits_integer (i : Int64) : (Message.integer i).Fits := by
  unfold Message.integer
  split
  · trivial
  · trivial

theorem Faithful.fits (h : Faithful S v) : v.serialize.Fits := by
  induction h with
  | i32 => exact fits_integer _
  | i64 => exact fits_integer _
  | array short all ih =>
    rw [serialize_array]
    apply Message.fits_array.mpr
    rw [List.length_map, List.forall_mem_map]
    exact ⟨short, ih⟩
  | map short distinct keys values ihk ihv =>
    rw [serialize_map]
    apply Message.fits_map.mpr
    rw [List.length_map, List.forall_mem_map]
    exact ⟨short, fun e he => ⟨ihk e he, ihv e he⟩⟩
  | string short => exact short
  | binary short => exact short
  | _ => trivial

/-- A faithful value comes back. -/
theorem Faithful.returns (h : Faithful S v) : deserialize S v.serialize = v := by
  induction h with
  | @i32 i negative kept =>
    have sign : i.toInt64.toInt < 0 := by rwa [Int32.toInt_toInt64]
    rw [serialize, integer_of_neg sign]
    exact kept
  | i64 negative kept =>
    rw [serialize, integer_of_neg negative]
    exact kept
  | @array items short all ih =>
    have same : (items.map serialize).map (deserialize S) = items := by
      rw [List.map_map]
      exact (List.map_congr_left ih).trans (List.map_id _)
    rw [serialize_array, deserialize_array, same]
  | @map entries short distinct keys values ihk ihv =>
    have same : (entries.map fun e => (serialize e.1, serialize e.2)).map
        (fun e => (deserialize S e.1, deserialize S e.2)) = entries := by
      rw [List.map_map]
      refine (List.map_congr_left fun e he => ?_).trans (List.map_id _)
      exact Prod.ext (ihk e he) (ihv e he)
    rw [serialize_map, deserialize_map, same, foldl_of_distinct distinct]
    rfl
  | _ => rfl

private theorem faithful_visitSigned {i : Int64} (h : i.toInt < 0) : Faithful S (S.visitSigned i) := by
  rcases S.visitSigned_keeps i with kept | ⟨j, rfl, kept⟩
  · rw [kept]
    exact .i64 h kept
  · rw [kept]
    rw [Int32.toInt_toInt64] at h
    exact .i32 h kept

private theorem faithful_integer (i : Int64) : Faithful S (deserialize S (.integer i)) := by
  unfold Message.integer
  split
  · exact .u64 _
  · exact faithful_visitSigned (by omega)

/-- Whatever comes back would come back a second time. -/
theorem faithful_deserialize (fits : v.serialize.Fits) : Faithful S (deserialize S v.serialize) := by
  induction v using induction with
  | i32 i => exact faithful_integer _
  | i64 i => exact faithful_integer _
  | array items ih =>
    rw [serialize_array] at fits ⊢
    obtain ⟨short, fits⟩ := Message.fits_array.mp fits
    rw [List.forall_mem_map] at fits
    rw [deserialize_array]
    apply Faithful.array
    · rwa [List.length_map]
    · rw [List.map_map, List.forall_mem_map]
      exact fun v hv => ih v hv (fits v hv)
  | map entries ih =>
    rw [serialize_map] at fits ⊢
    obtain ⟨short, fits⟩ := Message.fits_map.mp fits
    rw [List.forall_mem_map] at fits
    rw [deserialize_map, List.map_map]
    let reread (e : Value × Value) := (deserialize S e.1.serialize, deserialize S e.2.serialize)
    have back : ∀ e ∈ entries.map reread, Faithful S e.1 ∧ Faithful S e.2 :=
      List.forall_mem_map.mpr fun e he => ⟨(ih e he).1 (fits e he).1, (ih e he).2 (fits e he).2⟩
    have all : ∀ e ∈ (entries.map reread).foldl (insert S) [], Faithful S e.1 ∧ Faithful S e.2 :=
      forall_foldl nofun back
    have length : ((entries.map reread).foldl (insert S) []).length < 2 ^ 32 := by
      apply length_foldl_le.trans_lt
      rw [List.length_map] at short ⊢
      rwa [List.length_nil, Nat.zero_add]
    exact .map length (distinct_foldl List.Pairwise.nil) (fun e he => (all e he).1)
      fun e he => (all e he).2
  | ext name value ih => exact ih fits
  | string s => exact .string fits
  | binary bytes => exact .binary fits
  | null => exact .null
  | bool b => exact .bool b
  | u32 n => exact .u64 _
  | u64 n => exact .u64 n
  | f32 bits => exact .f32 bits
  | f64 bits => exact .f64 bits

private theorem fits_deserialize (fits : m.Fits) : (deserialize S m).serialize.Fits := by
  induction m using Message.induction with
  | signed i =>
    rcases S.visitSigned_keeps i with kept | ⟨j, -, kept⟩
    · change (serialize (S.visitSigned i)).Fits
      rw [kept]
      exact fits_integer i
    · change (serialize (S.visitSigned i)).Fits
      rw [kept]
      exact fits_integer j.toInt64
  | array items ih =>
    obtain ⟨short, fits⟩ := Message.fits_array.mp fits
    rw [deserialize_array, serialize_array, Message.fits_array, List.length_map, List.length_map,
      List.forall_mem_map, List.forall_mem_map]
    exact ⟨short, fun m hm => ih m hm (fits m hm)⟩
  | map entries ih =>
    obtain ⟨short, fits⟩ := Message.fits_map.mp fits
    rw [deserialize_map, serialize_map, Message.fits_map, List.length_map, List.forall_mem_map]
    constructor
    · apply length_foldl_le.trans_lt
      rwa [List.length_nil, List.length_map, Nat.zero_add]
    · apply forall_foldl (P := fun v => v.serialize.Fits) (Q := fun v => v.serialize.Fits)
      · exact List.forall_mem_nil _
      · rw [List.forall_mem_map]
        exact fun e he => ⟨(ih e he).1 (fits e he).1, (ih e he).2 (fits e he).2⟩
  | str s => exact fits
  | bin bytes => exact fits
  | _ => trivial

/-- What a reader of any depth makes of a written value is that value if and only if the value is
faithful. -/
theorem eq_iff_faithful {limit : Nat} {rest rest' : List UInt8}
    (h : Message.read limit (v.serialize.encode ++ rest) = .ok (m, rest')) :
    deserialize S m = v ↔ Faithful S v := by
  constructor
  · intro same
    have fits : v.serialize.Fits := by
      rw [← same]
      exact fits_deserialize (Message.yields_read _ _ _ h)
    rw [Message.eq_of_read fits h] at same
    rw [← same]
    exact faithful_deserialize fits
  · intro faithful
    rw [Message.eq_of_read faithful.fits h]
    exact faithful.returns

end
end Value
end RbatisCache.Rbs
