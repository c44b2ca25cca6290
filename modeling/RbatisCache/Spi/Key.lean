import RbatisCache.Collections.PrefixCode
import RbatisCache.Spi.Externals

/-! Cache keys (`key.rs`): the digest of all isolation boundaries of a query. -/
namespace RbatisCache

structure CacheKeyInput where
  version : String
  dataSource : String
  driver : String
  tenant : Option String
  nameSpace : String
  statementId : String
  sql : String
  parameters : Bytes
  deriving DecidableEq

structure CacheKey where
  digest : String
  nameSpace : String
  generation : UInt64
  tableTags : Finset String
  deriving DecidableEq

/-- What `update_component` appends to the hash input. -/
def frame (bytes : Bytes) : Bytes := toLeBytes (u64OrMax bytes.length) ++ bytes

def updateComponent (hasher bytes : Bytes) : Bytes := hasher ++ frame bytes

/-- The text components of a key, in the order they are hashed. -/
def CacheKeyInput.components (input : CacheKeyInput) (canonicalSql : String) : List String :=
  [input.version, input.dataSource, input.driver, input.tenant.getD "-", input.nameSpace,
    input.statementId, canonicalSql]

def CacheKey.build {P : Type} (X : Externals P) (input : CacheKeyInput) (generation : UInt64) :
    Except CacheError CacheKey :=
  match SqlMetadata.parse X.parser input.sql with
  | .error e => .error e
  | .ok metadata =>
    let hasher := (input.components metadata.canonicalSql).foldl
      (fun hasher component => updateComponent hasher (utf8 component)) []
    let hasher := updateComponent hasher (toLeBytes generation)
    let hasher := updateComponent hasher input.parameters
    .ok ⟨X.blake3 hasher, input.nameSpace, generation, metadata.tableTags⟩

/-! ### The hash input determines its components -/

/-- The frames of byte strings shorter than 2^64 are a prefix code. -/
theorem frame_prefixCode : PrefixCode frame (fun bytes => bytes.length < 2 ^ 64) :=
  PrefixCode.of_header (Nat.zero_lt_succ 7) (fun _ => length_toLeBytes _)
    (fun ha hb h => u64OrMax_inj ha hb (toLeBytes_inj h)) (fun _ h => h)

/-- Framed lists of byte strings, each shorter than 2^64, are uniquely decodable. -/
theorem frames_inj {as bs : List Bytes} (ha : ∀ a ∈ as, a.length < 2 ^ 64)
    (hb : ∀ b ∈ bs, b.length < 2 ^ 64) (h : as.flatMap frame = bs.flatMap frame) : as = bs :=
  frame_prefixCode.flatMap_inj ha hb h

/-- The components whose frames are the hash input, as byte strings. -/
def CacheKeyInput.stream (input : CacheKeyInput) (canonicalSql : String) (generation : UInt64) :
    List Bytes :=
  (input.components canonicalSql).map utf8 ++ [toLeBytes generation, input.parameters]

/-- Every component fits the eight-byte length prefix, as every Rust allocation does. -/
def CacheKeyInput.Fits (parser : SqlParser) (input : CacheKeyInput) : Prop :=
  ∀ metadata, SqlMetadata.parse parser input.sql = .ok metadata →
    ∀ generation, ∀ bytes ∈ input.stream metadata.canonicalSql generation, bytes.length < 2 ^ 64

section
variable {P : Type} {X : Externals P}

theorem CacheKey.build_ok {input : CacheKeyInput} {generation : UInt64} {key : CacheKey}
    (h : CacheKey.build X input generation = .ok key) :
    ∃ metadata, SqlMetadata.parse X.parser input.sql = .ok metadata ∧
      key = ⟨X.blake3 ((input.stream metadata.canonicalSql generation).flatMap frame),
        input.nameSpace, generation, metadata.tableTags⟩ := by
  unfold CacheKey.build at h
  split at h
  · cases h
  · next metadata hm =>
    refine ⟨metadata, hm, ?_⟩
    cases h
    simp [CacheKeyInput.stream, CacheKeyInput.components, updateComponent]

/-- Whether a key can be built does not depend on the generation. -/
theorem CacheKey.build_of_parse {input : CacheKeyInput} {metadata : SqlMetadata}
    (h : SqlMetadata.parse X.parser input.sql = .ok metadata) (generation : UInt64) :
    ∃ key, CacheKey.build X input generation = .ok key := by
  unfold CacheKey.build
  rw [h]
  exact ⟨_, rfl⟩

@[simp] theorem CacheKey.build_generation {input : CacheKeyInput} {generation : UInt64}
    {key : CacheKey} (h : CacheKey.build X input generation = .ok key) :
    key.generation = generation := by
  obtain ⟨_, _, rfl⟩ := CacheKey.build_ok h
  rfl

theorem CacheKey.build_of_mapError {input : CacheKeyInput} {generation : UInt64} {key : CacheKey}
    {ε : Type} {describe : CacheError → ε}
    (h : (CacheKey.build X input generation).mapError describe = .ok key) :
    CacheKey.build X input generation = .ok key := by
  cases built : CacheKey.build X input generation with
  | error e => simp [built, Except.mapError] at h
  | ok k => simpa [built, Except.mapError] using h

/-- With a collision-free hash, keys of equal digest were built from the same components. -/
theorem CacheKey.stream_of_digest {a b : CacheKeyInput} {g h : UInt64} {ka kb : CacheKey}
    (hash : Function.Injective X.blake3) (ha : CacheKey.build X a g = .ok ka)
    (hb : CacheKey.build X b h = .ok kb) (fa : a.Fits X.parser) (fb : b.Fits X.parser)
    (hd : ka.digest = kb.digest) :
    ∃ ma mb, SqlMetadata.parse X.parser a.sql = .ok ma ∧ SqlMetadata.parse X.parser b.sql = .ok mb ∧
      a.stream ma.canonicalSql g = b.stream mb.canonicalSql h := by
  obtain ⟨ma, hma, rfl⟩ := CacheKey.build_ok ha
  obtain ⟨mb, hmb, rfl⟩ := CacheKey.build_ok hb
  exact ⟨ma, mb, hma, hmb, frames_inj (fa ma hma g) (fb mb hmb h) (hash hd)⟩

theorem CacheKeyInput.stream_inj {a b : CacheKeyInput} {ca cb : String} {g h : UInt64}
    (hs : a.stream ca g = b.stream cb h) :
    a.components ca = b.components cb ∧ g = h ∧ a.parameters = b.parameters := by
  obtain ⟨hc, ht⟩ := List.append_inj hs (by simp [CacheKeyInput.components])
  obtain ⟨hg, hp⟩ := List.cons.inj ht
  exact ⟨List.map_injective_iff.mpr (fun _ _ => utf8_inj) hc, toLeBytes_inj hg, (List.cons.inj hp).1⟩

/-- Entries of different namespaces or generations never share a digest. -/
theorem CacheKey.origin_of_digest {a b : CacheKeyInput} {g h : UInt64} {ka kb : CacheKey}
    (hash : Function.Injective X.blake3) (ha : CacheKey.build X a g = .ok ka)
    (hb : CacheKey.build X b h = .ok kb) (fa : a.Fits X.parser) (fb : b.Fits X.parser)
    (hd : ka.digest = kb.digest) : a.nameSpace = b.nameSpace ∧ g = h := by
  obtain ⟨ma, mb, -, -, hs⟩ := CacheKey.stream_of_digest hash ha hb fa fb hd
  obtain ⟨hc, hg, -⟩ := CacheKeyInput.stream_inj hs
  simp only [CacheKeyInput.components, List.cons.injEq] at hc
  exact ⟨hc.2.2.2.2.1, hg⟩

end
end RbatisCache
