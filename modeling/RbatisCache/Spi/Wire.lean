import Mathlib.Data.Finset.Sort
import Mathlib.Data.String.Basic
import RbatisCache.MessagePack.Truncation
import RbatisCache.Spi.Sample

/-! The bytes of an envelope (`envelope.rs`): MessagePack with the names of the fields. -/
namespace RbatisCache
open MessagePack

namespace CacheEnvelope

/-- `Serialize for CacheEnvelope`: tags are a sequence in their order, and so are the payload's bytes. -/
def serialize (e : CacheEnvelope Bytes) : Message :=
  .map [
    (.str "version", .unsigned e.version.toUInt64),
    (.str "generation", .unsigned e.generation),
    (.str "expires_at_ms", .unsigned e.expiresAtMs),
    (.str "table_tags", .array ((e.tableTags.sort (· ≤ ·)).map .str)),
    (.str "payload", .array (e.payload.map fun b => .unsigned b.toUInt64))]

/-- The MessagePack form of it. -/
def wire (e : CacheEnvelope Bytes) : Bytes := e.serialize.encode

/-- The format has room for the tags and the payload. -/
structure FitsWire (e : CacheEnvelope Bytes) : Prop where
  tags : e.tableTags.card < 2 ^ 32
  tag : ∀ t ∈ e.tableTags, (utf8 t).length < 2 ^ 32
  payload : e.payload.length < 2 ^ 32

end CacheEnvelope

/-- What is documented of `rmp_serde` and of a derived `Deserialize`. -/
structure Externals.MessagePacked (X : Externals Bytes) (depthLimit : Nat)
    (deserialize : Message → Except String (CacheEnvelope Bytes)) : Prop where
  /-- `to_vec_named` writes a struct as a map with the names of its fields. -/
  toVecNamed : ∀ e, e.FitsWire → X.toVecNamed e = .ok e.wire
  /-- `from_slice` reads one value, and does not look at what follows it. -/
  fromSlice : ∀ bytes m rest, Message.read depthLimit bytes = .ok (m, rest) →
    X.fromSlice bytes = deserialize m
  /-- It is an error when the input ends within a value. -/
  eof : ∀ bytes, Message.read depthLimit bytes = .error .eof → ∃ m, X.fromSlice bytes = .error m
  deep : 3 ≤ depthLimit
  /-- A map with the names of the fields is read as the struct. -/
  derived : ∀ e : CacheEnvelope Bytes, deserialize e.serialize = .ok e

section
variable {X : Externals Bytes} {depthLimit : Nat}
variable {deserialize : Message → Except String (CacheEnvelope Bytes)} {e : CacheEnvelope Bytes}

private theorem foldr_max_le {ds : List Nat} {n : Nat} (h : ∀ d ∈ ds, d ≤ n) : ds.foldr max 0 ≤ n := by
  induction ds with
  | nil => exact Nat.zero_le n
  | cons d ds ih =>
    rw [List.foldr_cons]
    exact Nat.max_le.mpr ⟨h d List.mem_cons_self, ih fun x hx => h x (List.mem_cons_of_mem _ hx)⟩

private theorem depth_array_le {items : List Message} {n : Nat} (h : ∀ m ∈ items, m.depth ≤ n) :
    (Message.array items).depth ≤ n + 1 := by
  rw [Message.depth, Message.fold_array]
  exact Nat.succ_le_succ (foldr_max_le (List.forall_mem_map.mpr h))

private theorem depth_map_le {entries : List (Message × Message)} {n : Nat}
    (h : ∀ e ∈ entries, e.1.depth ≤ n ∧ e.2.depth ≤ n) : (Message.map entries).depth ≤ n + 1 := by
  rw [Message.depth, Message.fold_map, List.map_map]
  refine Nat.succ_le_succ (foldr_max_le (List.forall_mem_map.mpr fun e he => ?_))
  exact Nat.max_le.mpr (h e he)

theorem CacheEnvelope.depth_serialize (e : CacheEnvelope Bytes) : e.serialize.depth ≤ 3 := by
  have leaves {items : List Message} (h : ∀ m ∈ items, m.depth = 1) : (Message.array items).depth ≤ 2 :=
    depth_array_le fun m hm => (h m hm).le
  have scalar (m : Message) (h : m.depth = 1) : m.depth ≤ 2 := by omega
  apply depth_map_le
  simp only [List.forall_mem_cons]
  refine ⟨⟨scalar _ rfl, scalar _ rfl⟩, ⟨scalar _ rfl, scalar _ rfl⟩, ⟨scalar _ rfl, scalar _ rfl⟩,
    ⟨scalar _ rfl, leaves ?_⟩, ⟨scalar _ rfl, leaves ?_⟩, nofun⟩
  · exact List.forall_mem_map.mpr fun _ _ => rfl
  · exact List.forall_mem_map.mpr fun _ _ => rfl

theorem CacheEnvelope.FitsWire.serialize (fits : e.FitsWire) : e.serialize.Fits := by
  have name {s : String} (short : (Message.utf8 s).length < 256 ^ 4) : (Message.str s).Fits := short
  have five : 5 < 256 ^ 4 := by decide
  refine Message.fits_map.mpr ⟨five, ?_⟩
  simp only [List.forall_mem_cons]
  refine ⟨⟨name (by decide), trivial⟩, ⟨name (by decide), trivial⟩, ⟨name (by decide), trivial⟩,
    ⟨name (by decide), ?_⟩, ⟨name (by decide), ?_⟩, nofun⟩
  · refine Message.fits_array.mpr ⟨?_, List.forall_mem_map.mpr fun t ht => ?_⟩
    · rw [List.length_map, Finset.length_sort]
      exact fits.tags
    · exact fits.tag t ((Finset.mem_sort _).mp ht)
  · refine Message.fits_array.mpr ⟨?_, List.forall_mem_map.mpr fun _ _ => trivial⟩
    rw [List.length_map]
    exact fits.payload

private theorem reads_wire (fits : e.FitsWire) (deep : 3 ≤ depthLimit) :
    (Message.read depthLimit).Reads e.wire e.serialize :=
  Message.reads_encode fits.serialize (e.depth_serialize.trans deep)

namespace Externals.MessagePacked
variable (packed : X.MessagePacked depthLimit deserialize)
include packed

private theorem encode_eq (fits : e.FitsWire) : e.encode X = .ok e.wire :=
  congrArg (Except.mapError CacheError.codec) (packed.toVecNamed e fits)

private theorem decode_wire (fits : e.FitsWire) (rest : Bytes) :
    CacheEnvelope.decode X (e.wire ++ rest) = .ok e := by
  have read := packed.fromSlice _ _ _ (reads_wire fits packed.deep rest)
  exact congrArg (Except.mapError CacheError.codec) (read.trans (packed.derived e))

private theorem decode_cut (fits : e.FitsWire) {cut : Bytes} (before : cut <+: e.wire)
    (missing : cut ≠ e.wire) :
    ∃ m, CacheEnvelope.decode X cut = .error (.codec m) := by
  obtain ⟨m, fails⟩ := packed.eof cut
    ((Message.local_read depthLimit).eof (reads_wire fits packed.deep) before missing)
  exact ⟨m, congrArg (Except.mapError CacheError.codec) fails⟩

end Externals.MessagePacked

/-- Envelopes with tags and payloads of less than 2^32 parts each come back from their bytes, whatever
follows these; an envelope whose end is missing is an error; and no envelope begins another one. -/
theorem envelopes_on_the_wire (packed : X.MessagePacked depthLimit deserialize) (fits : e.FitsWire) :
    ∃ bytes, e.encode X = .ok bytes ∧
      (∀ rest, CacheEnvelope.decode X (bytes ++ rest) = .ok e) ∧
      (∀ cut, cut <+: bytes → cut ≠ bytes → ∃ m, CacheEnvelope.decode X cut = .error (.codec m)) ∧
      ∀ (e' : CacheEnvelope Bytes) bytes', e'.FitsWire → e'.encode X = .ok bytes' →
        bytes <+: bytes' → e = e' := by
  refine ⟨e.wire, packed.encode_eq fits, packed.decode_wire fits,
    fun cut => packed.decode_cut fits, fun e' bytes' fits' encoded starts => ?_⟩
  obtain rfl : e'.wire = bytes' := Except.ok.inj ((packed.encode_eq fits').symm.trans encoded)
  obtain ⟨rest, whole⟩ := starts
  have first := packed.decode_wire fits rest
  have second := packed.decode_wire fits' []
  rw [List.append_nil, ← whole, first] at second
  exact Except.ok.inj second

end

namespace Sample

def text? : Message → Option String
  | .str s => some s
  | _ => none

def byte? : Message → Option UInt8
  | .unsigned n => some n.toUInt8
  | _ => none

/-- The fields in their order. -/
def deserialize : Message → Except String (CacheEnvelope Bytes)
  | .map [(.str a, .unsigned version), (.str b, .unsigned generation), (.str c, .unsigned expiresAtMs),
      (.str d, .array tags), (.str f, .array payload)] =>
    if [a, b, c, d, f] = ["version", "generation", "expires_at_ms", "table_tags", "payload"] then
      .ok ⟨version.toUInt16, generation, expiresAtMs, (tags.filterMap text?).toFinset,
        payload.filterMap byte?⟩
    else .error "missing field"
  | _ => .error "invalid type"

private theorem deserialize_serialize (e : CacheEnvelope Bytes) : deserialize e.serialize = .ok e := by
  have tags (l : List String) : (l.map Message.str).filterMap text? = l := by
    rw [List.filterMap_map]
    exact List.filterMap_some
  have bytes (l : Bytes) : (l.map fun b => Message.unsigned b.toUInt64).filterMap byte? = l := by
    rw [List.filterMap_map]
    refine (List.filterMap_congr fun b _ => ?_).trans List.filterMap_some
    simp [byte?]
  rw [CacheEnvelope.serialize, deserialize, if_pos rfl, tags, bytes, Finset.sort_toFinset]
  simp

/-- The format, read to a depth of 1024. -/
def unpack (bytes : Bytes) : Except String (CacheEnvelope Bytes) :=
  match Message.read 1024 bytes with
  | .error _ => .error "syntax error"
  | .ok (m, _) => deserialize m

def packing : Externals Bytes := ⟨parser, hash, fun e => .ok e.wire, unpack, List.length⟩

private theorem packing_packed : packing.MessagePacked 1024 deserialize where
  toVecNamed _ _ := rfl
  fromSlice bytes m rest read := by
    change unpack bytes = deserialize m
    rw [unpack, read]
  eof bytes ends := by
    refine ⟨"syntax error", ?_⟩
    change unpack bytes = _
    rw [unpack, ends]
  deep := by decide
  derived := deserialize_serialize

end Sample

/-- The envelope of a short payload comes back from a longer value. -/
theorem short_envelope_returns : ∃ bytes,
    (⟨1, 2, 3, {"users"}, [200, 7]⟩ : CacheEnvelope Bytes).encode Sample.packing = .ok bytes ∧
      CacheEnvelope.decode Sample.packing (bytes ++ [0, 1]) = .ok ⟨1, 2, 3, {"users"}, [200, 7]⟩ := by
  obtain ⟨bytes, encoded, returns, -⟩ := envelopes_on_the_wire Sample.packing_packed
    (e := ⟨1, 2, 3, {"users"}, [200, 7]⟩) ⟨by decide, by decide, by decide⟩
  exact ⟨bytes, encoded, returns [0, 1]⟩

end RbatisCache
