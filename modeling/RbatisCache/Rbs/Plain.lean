import RbatisCache.Rbs.Value

/-! What MessagePack keeps of a value: an integer without its width, an extension without its name. -/
namespace RbatisCache.Rbs.Value
open MessagePack

/-- An integer, unsigned if it can be. -/
def plainInteger (i : Int64) : Value :=
  if 0 ≤ i.toInt then .u64 (.ofNat i.toInt.toNat) else .i64 i

mutual
/-- The value without the widths of its integers and the names of its extensions. -/
def plain : Value → Value
  | .null => .null
  | .bool b => .bool b
  | .i32 i => plainInteger i.toInt64
  | .i64 i => plainInteger i
  | .u32 n => .u64 n.toUInt64
  | .u64 n => .u64 n
  | .f32 bits => .f32 bits
  | .f64 bits => .f64 bits
  | .string s => .string s
  | .binary bytes => .binary bytes
  | .array items => .array (plainItems items)
  | .map entries => .map (plainEntries entries)
  | .ext _ value => plain value

def plainItems : List Value → List Value
  | [] => []
  | item :: items => plain item :: plainItems items

def plainEntries : List (Value × Value) → List (Value × Value)
  | [] => []
  | (key, value) :: entries => (plain key, plain value) :: plainEntries entries
end

/-- The plain value that a message stands for. -/
def ofMessage : Message → Value :=
  Message.fold
    (fun
      | .nil => .null
      | .boolean b => .bool b
      | .unsigned n => .u64 n
      | .signed i => .i64 i
      | .float32 bits => .f32 bits
      | .float64 bits => .f64 bits
      | .str s => .string s
      | .bin bytes => .binary bytes
      | .array _ | .map _ => .null)
    .array .map

private theorem plainItems_eq (items : List Value) : plainItems items = items.map plain := by
  induction items with
  | nil => rfl
  | cons item items ih => rw [plainItems, List.map_cons, ih]

private theorem plainEntries_eq (entries : List (Value × Value)) :
    plainEntries entries = entries.map fun e => (plain e.1, plain e.2) := by
  induction entries with
  | nil => rfl
  | cons entry entries ih => rw [plainEntries, List.map_cons, ih]

private theorem plain_array (items : List Value) : plain (.array items) = .array (items.map plain) := by
  rw [plain, plainItems_eq]

private theorem plain_map (entries : List (Value × Value)) :
    plain (.map entries) = .map (entries.map fun e => (plain e.1, plain e.2)) := by
  rw [plain, plainEntries_eq]

private theorem ofMessage_integer (i : Int64) : ofMessage (.integer i) = plainInteger i := by
  unfold Message.integer plainInteger
  split
  · rfl
  · rfl

private theorem serialize_plainInteger (i : Int64) : serialize (plainInteger i) = .integer i := by
  unfold plainInteger Message.integer
  split
  · rfl
  · next negative =>
    rw [serialize, Message.integer, if_neg negative]

/-- A value is serialized as its plain form. -/
theorem serialize_plain (v : Value) : v.plain.serialize = v.serialize := by
  induction v using induction with
  | i32 i => exact serialize_plainInteger i.toInt64
  | i64 i => exact serialize_plainInteger i
  | array items ih =>
    rw [plain_array, serialize_array, serialize_array, List.map_map]
    exact congrArg Message.array (List.map_congr_left ih)
  | map entries ih =>
    rw [plain_map, serialize_map, serialize_map, List.map_map]
    refine congrArg Message.map (List.map_congr_left fun e he => ?_)
    exact Prod.ext (ih e he).1 (ih e he).2
  | ext name value ih => exact ih
  | _ => rfl

/-- The message tells the plain form. -/
theorem ofMessage_serialize (v : Value) : ofMessage v.serialize = v.plain := by
  induction v using induction with
  | i32 i => exact ofMessage_integer i.toInt64
  | i64 i => exact ofMessage_integer i
  | array items ih =>
    rw [serialize_array, plain_array, ofMessage, Message.fold_array, List.map_map]
    exact congrArg Value.array (List.map_congr_left ih)
  | map entries ih =>
    rw [serialize_map, plain_map, ofMessage, Message.fold_map, List.map_map]
    refine congrArg Value.map (List.map_congr_left fun e he => ?_)
    exact Prod.ext (ih e he).1 (ih e he).2
  | ext name value ih => exact ih
  | _ => rfl

/-- Values become the same message exactly if they have the same plain form. -/
theorem serialize_eq_iff {v w : Value} : v.serialize = w.serialize ↔ v.plain = w.plain := by
  constructor
  · intro same
    rw [← ofMessage_serialize, same, ofMessage_serialize]
  · intro same
    rw [← serialize_plain, same, serialize_plain]

theorem map_serialize_eq_iff {vs ws : List Value} :
    vs.map serialize = ws.map serialize ↔ vs.map plain = ws.map plain := by
  have items := serialize_eq_iff (v := .array vs) (w := .array ws)
  rwa [serialize_array, serialize_array, plain_array, plain_array, Message.array.injEq,
    array.injEq] at items

end RbatisCache.Rbs.Value
