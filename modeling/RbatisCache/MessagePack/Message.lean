import RbatisCache.MessagePack.Head

/-! Messages of MessagePack as trees. A reader with enough depth inverts the writer. -/
namespace RbatisCache.MessagePack

/-- A message without extensions. -/
inductive Message where
  | nil
  | boolean (b : Bool)
  | unsigned (n : UInt64)
  | signed (i : Int64)
  | float32 (bits : UInt32)
  | float64 (bits : UInt64)
  | str (s : String)
  | bin (bytes : List UInt8)
  | array (items : List Message)
  | map (entries : List (Message × Message))

namespace Message

/-- An integer in its shortest form, whatever its type. -/
def integer (i : Int64) : Message :=
  if 0 ≤ i.toInt then .unsigned (.ofNat i.toInt.toNat) else .signed i

/-! ### Folds -/

section
variable {α : Type} (leaf : Message → α) (array : List α → α) (map : List (α × α) → α)

mutual
def fold : Message → α
  | .array items => array (foldItems items)
  | .map entries => map (foldEntries entries)
  | .nil => leaf .nil
  | .boolean b => leaf (.boolean b)
  | .unsigned n => leaf (.unsigned n)
  | .signed i => leaf (.signed i)
  | .float32 bits => leaf (.float32 bits)
  | .float64 bits => leaf (.float64 bits)
  | .str s => leaf (.str s)
  | .bin bytes => leaf (.bin bytes)

def foldItems : List Message → List α
  | [] => []
  | item :: items => fold item :: foldItems items

def foldEntries : List (Message × Message) → List (α × α)
  | [] => []
  | (key, value) :: entries => (fold key, fold value) :: foldEntries entries
end

theorem foldItems_eq (items : List Message) :
    foldItems leaf array map items = items.map (fold leaf array map) := by
  induction items with
  | nil => rfl
  | cons item items ih => rw [foldItems, List.map_cons, ih]

theorem foldEntries_eq (entries : List (Message × Message)) :
    foldEntries leaf array map entries =
      entries.map fun e => (fold leaf array map e.1, fold leaf array map e.2) := by
  induction entries with
  | nil => rfl
  | cons entry entries ih => rw [foldEntries, List.map_cons, ih]

theorem fold_array (items : List Message) :
    fold leaf array map (.array items) = array (items.map (fold leaf array map)) := by
  rw [fold, foldItems_eq]

theorem fold_map (entries : List (Message × Message)) :
    fold leaf array map (.map entries) =
      map (entries.map fun e => (fold leaf array map e.1, fold leaf array map e.2)) := by
  rw [fold, foldEntries_eq]

end

/-- Induction along the tree. -/
theorem induction {P : Message → Prop} (nil : P .nil) (boolean : ∀ b, P (.boolean b))
    (unsigned : ∀ n, P (.unsigned n)) (signed : ∀ i, P (.signed i))
    (float32 : ∀ bits, P (.float32 bits)) (float64 : ∀ bits, P (.float64 bits))
    (str : ∀ s, P (.str s)) (bin : ∀ bytes, P (.bin bytes))
    (array : ∀ items, (∀ m ∈ items, P m) → P (.array items))
    (map : ∀ entries, (∀ e ∈ entries, P e.1 ∧ P e.2) → P (.map entries)) (m : Message) : P m :=
  @Message.rec P (fun items => ∀ m ∈ items, P m) (fun entries => ∀ e ∈ entries, P e.1 ∧ P e.2)
    (fun e => P e.1 ∧ P e.2) nil boolean unsigned signed float32 float64 str bin array map nofun
    (fun _ _ hm hs => List.forall_mem_cons.mpr ⟨hm, hs⟩) nofun
    (fun _ _ he hs => List.forall_mem_cons.mpr ⟨he, hs⟩) (fun _ _ hk hv => ⟨hk, hv⟩) m

/-! ### Writing and reading -/

def utf8 (s : String) : List UInt8 := s.toUTF8.data.toList

def ofUtf8 (bytes : List UInt8) : Reader Message :=
  match String.fromUTF8? ⟨bytes.toArray⟩ with
  | some s => .ret (.str s)
  | none => .fail .utf8

def encode : Message → List UInt8 :=
  fold
    (fun
      | .nil => Head.nil.encode
      | .boolean b => (Head.boolean b).encode
      | .unsigned n => (Head.unsigned n).encode
      | .signed i => (Head.signed i).encode
      | .float32 bits => (Head.float32 bits).encode
      | .float64 bits => (Head.float64 bits).encode
      | .str s => (Head.str (utf8 s).length).encode ++ utf8 s
      | .bin bytes => (Head.bin bytes.length).encode ++ bytes
      | .array _ | .map _ => [])
    (fun items => (Head.array items.length).encode ++ items.flatten)
    (fun entries => (Head.map entries.length).encode ++ entries.flatMap fun e => e.1 ++ e.2)

/-- The lengths in the message fit in 32 bits. -/
def Fits : Message → Prop :=
  fold
    (fun
      | .str s => (utf8 s).length < 256 ^ 4
      | .bin bytes => bytes.length < 256 ^ 4
      | _ => True)
    (fun items => items.length < 256 ^ 4 ∧ ∀ p ∈ items, p)
    (fun entries => entries.length < 256 ^ 4 ∧ ∀ e ∈ entries, e.1 ∧ e.2)

def depth : Message → Nat :=
  fold (fun _ => 1) (fun items => items.foldr max 0 + 1)
    fun entries => (entries.map fun e => max e.1 e.2).foldr max 0 + 1

/-- What follows a head; `next` reads one level deeper. -/
def readBody (next : Reader Message) : Head → Reader Message
  | .nil => .ret .nil
  | .boolean b => .ret (.boolean b)
  | .unsigned n => .ret (.unsigned n)
  | .signed i => .ret (.signed i)
  | .float32 bits => .ret (.float32 bits)
  | .float64 bits => .ret (.float64 bits)
  | .str n => (Reader.take n).bind ofUtf8
  | .bin n => (Reader.take n).map .bin
  | .array n => (next.many n).map .array
  | .map n => ((Reader.pair next next).many n).map .map

def read : Nat → Reader Message
  | 0 => .fail .depthLimitExceeded
  | limit + 1 => Head.read.bind (readBody (read limit))

theorem encode_array (items : List Message) : encode (.array items) =
    (Head.array items.length).encode ++ items.flatMap encode := by
  rw [encode, fold_array, List.length_map]
  rfl

theorem encode_map (entries : List (Message × Message)) : encode (.map entries) =
    (Head.map entries.length).encode ++ entries.flatMap fun e => encode e.1 ++ encode e.2 := by
  rw [encode, fold_map, List.length_map, List.flatMap_map]

theorem fits_array {items : List Message} :
    (array items).Fits ↔ items.length < 256 ^ 4 ∧ ∀ m ∈ items, m.Fits := by
  rw [Fits, fold_array, List.length_map, List.forall_mem_map]

theorem fits_map {entries : List (Message × Message)} :
    (map entries).Fits ↔ entries.length < 256 ^ 4 ∧ ∀ e ∈ entries, e.1.Fits ∧ e.2.Fits := by
  rw [Fits, fold_map, List.length_map, List.forall_mem_map]

theorem le_foldr_max {ds : List Nat} {d : Nat} (h : d ∈ ds) : d ≤ ds.foldr max 0 := by
  induction ds with
  | nil => cases h
  | cons e ds ih =>
    rw [List.foldr_cons]
    rcases List.mem_cons.mp h with rfl | h
    · omega
    · have := ih h
      omega

theorem depth_item {items : List Message} {m : Message} (h : m ∈ items) :
    m.depth + 1 ≤ (array items).depth := by
  rw [depth, fold_array]
  exact Nat.succ_le_succ (le_foldr_max (List.mem_map_of_mem h))

theorem depth_entry {entries : List (Message × Message)} {e : Message × Message} (h : e ∈ entries) :
    e.1.depth + 1 ≤ (map entries).depth ∧ e.2.depth + 1 ≤ (map entries).depth := by
  rw [depth, fold_map, List.map_map]
  have bound := le_foldr_max (List.mem_map_of_mem (f := fun e => max (depth e.1) (depth e.2)) h)
  exact ⟨Nat.succ_le_succ ((Nat.le_max_left _ _).trans bound),
    Nat.succ_le_succ ((Nat.le_max_right _ _).trans bound)⟩

theorem depth_pos (m : Message) : 1 ≤ m.depth := by
  cases m with
  | array items =>
    rw [depth, fold_array]
    exact Nat.succ_pos _
  | map entries =>
    rw [depth, fold_map]
    exact Nat.succ_pos _
  | _ => exact Nat.le_refl 1

theorem ofUtf8_utf8 (s : String) : ofUtf8 (utf8 s) = .ret (.str s) := by
  have valid : String.fromUTF8? s.toByteArray = some s := by
    rw [String.fromUTF8?, dif_pos s.isValidUTF8]
    rfl
  simp only [ofUtf8, utf8, Array.toArray_toList, String.toUTF8_eq_toByteArray, valid]

section
variable {limit : Nat} {m : Message}

/-- A head and what follows it. -/
theorem reads_body {head : Head} {bytes : List UInt8} (fits : head.Fits)
    (body : (readBody (read limit) head).Reads bytes m) :
    (read (limit + 1)).Reads (head.encode ++ bytes) m :=
  (Head.reads_encode fits).bind body

theorem reads_scalar {head : Head} (scalar : head.length = 0)
    (body : readBody (read limit) head = .ret m) : (read (limit + 1)).Reads head.encode m := by
  have fits : head.Fits := by
    rw [Head.Fits, scalar]
    decide
  have reads : (read (limit + 1)).Reads (head.encode ++ []) m := by
    apply reads_body fits
    rw [body]
    exact Reader.reads_ret
  rwa [List.append_nil] at reads

/-- What is written is read back, and nothing of what follows it is touched. -/
theorem reads_encode (fits : m.Fits) (deep : m.depth ≤ limit) : (read limit).Reads m.encode m := by
  induction m using induction generalizing limit with
  | array items ih =>
    obtain ⟨limit, rfl⟩ := Nat.exists_eq_add_of_le' ((depth_pos _).trans deep)
    obtain ⟨few, fits⟩ := fits_array.mp fits
    have few : (Head.array items.length).Fits := few
    rw [encode_array]
    apply reads_body few
    apply Reader.Reads.map
    apply Reader.Reads.many
    intro m hm
    exact ih m hm (fits m hm) (Nat.le_of_succ_le_succ ((depth_item hm).trans deep))
  | map entries ih =>
    obtain ⟨limit, rfl⟩ := Nat.exists_eq_add_of_le' ((depth_pos _).trans deep)
    obtain ⟨few, fits⟩ := fits_map.mp fits
    have few : (Head.map entries.length).Fits := few
    rw [encode_map]
    apply reads_body few
    apply Reader.Reads.map
    apply Reader.Reads.many
    intro e he
    obtain ⟨hk, hv⟩ := depth_entry he
    exact ((ih e he).1 (fits e he).1 (Nat.le_of_succ_le_succ (hk.trans deep))).pair
      ((ih e he).2 (fits e he).2 (Nat.le_of_succ_le_succ (hv.trans deep)))
  | str s =>
    obtain ⟨limit, rfl⟩ := Nat.exists_eq_add_of_le' ((depth_pos _).trans deep)
    have body : ((Reader.take (utf8 s).length).bind ofUtf8).Reads (utf8 s ++ []) (.str s) := by
      apply (Reader.reads_take rfl).bind
      rw [ofUtf8_utf8]
      exact Reader.reads_ret
    rw [List.append_nil] at body
    exact reads_body fits body
  | bin bytes =>
    obtain ⟨limit, rfl⟩ := Nat.exists_eq_add_of_le' ((depth_pos _).trans deep)
    exact reads_body fits (Reader.reads_take rfl).map
  | nil =>
    obtain ⟨limit, rfl⟩ := Nat.exists_eq_add_of_le' deep
    exact reads_scalar (rfl : (Head.nil).length = 0) rfl
  | boolean b =>
    obtain ⟨limit, rfl⟩ := Nat.exists_eq_add_of_le' deep
    exact reads_scalar (rfl : (Head.boolean b).length = 0) rfl
  | unsigned n =>
    obtain ⟨limit, rfl⟩ := Nat.exists_eq_add_of_le' deep
    exact reads_scalar (rfl : (Head.unsigned n).length = 0) rfl
  | signed i =>
    obtain ⟨limit, rfl⟩ := Nat.exists_eq_add_of_le' deep
    exact reads_scalar (rfl : (Head.signed i).length = 0) rfl
  | float32 bits =>
    obtain ⟨limit, rfl⟩ := Nat.exists_eq_add_of_le' deep
    exact reads_scalar (rfl : (Head.float32 bits).length = 0) rfl
  | float64 bits =>
    obtain ⟨limit, rfl⟩ := Nat.exists_eq_add_of_le' deep
    exact reads_scalar (rfl : (Head.float64 bits).length = 0) rfl

/-- A deeper reader reads the same. -/
theorem extends_read {deeper : Nat} (h : limit ≤ deeper) :
    (read deeper).Extends (read limit) := by
  induction limit generalizing deeper with
  | zero => exact fun _ _ hr => nomatch hr
  | succ limit ih =>
    obtain ⟨deeper, rfl⟩ :=
      Nat.exists_eq_add_of_le' (Nat.succ_le_of_lt (Nat.lt_of_lt_of_le (Nat.succ_pos _) h))
    have next := ih (Nat.le_of_succ_le_succ h)
    apply Reader.Extends.refl.bind
    intro head
    cases head with
    | array n => exact next.many.bind fun _ => .refl
    | map n => exact (next.pair next).many.bind fun _ => .refl
    | _ => exact .refl

/-- Whatever the depth, a message is read as itself or not at all. -/
theorem eq_of_read {m' : Message} {rest rest' : List UInt8} (fits : m.Fits)
    (h : read limit (m.encode ++ rest) = .ok (m', rest')) : m' = m :=
  (reads_encode fits (Nat.le_max_left m.depth limit)).unique (extends_read (Nat.le_max_right _ _)) h

/-- Messages are told apart by their encodings. -/
theorem encode_inj {m' : Message} (fits : m.Fits) (fits' : m'.Fits) (h : m.encode = m'.encode) :
    m = m' := by
  have reads := reads_encode fits (Nat.le_refl _) []
  rw [h] at reads
  exact eq_of_read fits' reads

theorem encode_array_ne_nil (items : List Message) : encode (.array items) ≠ [] := by
  rw [encode_array]
  exact List.append_ne_nil_of_left_ne_nil (Head.encode_ne_nil _) _

theorem yields_ofUtf8 (bytes : List UInt8) :
    (ofUtf8 bytes).Yields fun m => ∃ s, m = .str s ∧ utf8 s = bytes := by
  unfold ofUtf8
  split
  · next s hs =>
    refine Reader.yields_ret ⟨s, rfl, ?_⟩
    unfold String.fromUTF8? at hs
    split at hs
    · cases hs
      rfl
    · cases hs
  · exact Reader.yields_fail

/-- Only messages are read whose lengths fit. -/
theorem yields_read : (read limit).Yields Fits := by
  induction limit with
  | zero => exact Reader.yields_fail
  | succ limit ih =>
    refine Reader.Yields.bind Head.yields_read fun head few => ?_
    cases head with
    | str n =>
      refine Reader.Yields.bind (Reader.yields_take (n := n)) fun bytes length => ?_
      subst length
      intro bytes' m rest hr
      obtain ⟨s, rfl, rfl⟩ := yields_ofUtf8 _ _ _ _ hr
      exact few
    | bin n =>
      refine Reader.Yields.map fun bytes bytes' rest hr => ?_
      exact (Reader.yields_take _ _ _ hr).trans_lt few
    | array n =>
      refine Reader.Yields.map fun bytes items rest hr => ?_
      obtain ⟨length, all⟩ := ih.many _ _ _ hr
      exact fits_array.mpr ⟨length.trans_lt few, all⟩
    | map n =>
      refine Reader.Yields.map fun bytes entries rest hr => ?_
      obtain ⟨length, all⟩ := (ih.pair ih).many _ _ _ hr
      exact fits_map.mpr ⟨length.trans_lt few, all⟩
    | _ => exact Reader.yields_ret trivial

end
end Message
end RbatisCache.MessagePack
