import RbatisCache.Spi.Backend
import RbatisCache.Spi.Envelope

/-! A small concrete choice of the external functions, on which the model can be run. -/
namespace RbatisCache.Sample

structure Known where
  text : String
  statement : Statement
  relations : List String

def plainSelect : Query := .mk [] (.select none []) [] []

def lockingSelect : Query := .mk [] (.select none []) [] [.update]

def deletingCte : Query := .mk [.mk [] (.delete (.delete [])) [] []] (.select none []) [] []

/-- The statements the sample parser knows, each in its canonical form. -/
def known : List Known := [
  ⟨"SELECT 1", .query plainSelect, []⟩,
  ⟨"SELECT 2", .query plainSelect, []⟩,
  ⟨"WITH t AS (DELETE FROM users RETURNING id) SELECT id FROM t", .query deletingCte,
    ["users", "t"]⟩,
  ⟨"SELECT id FROM users FOR UPDATE", .query lockingSelect, ["users"]⟩]

def parser : SqlParser where
  Ast := Known
  parseSql sql :=
    match known.find? fun k => k.text == sql with
    | some k => .ok [k]
    | none => .error "unknown statement"
  statement := Known.statement
  display := Known.text
  visitRelations statements := statements.flatMap Known.relations

private theorem known_showsLocks {k : Known} (hk : k ∈ known) {l : LockType}
    (hl : .lock l ∈ k.statement.constructs) : contains k.text l.text = true := by
  simp only [known, List.mem_cons, List.not_mem_nil, or_false] at hk
  rcases hk with rfl | rfl | rfl | rfl
  · cases hl
  · cases hl
  · simp [deletingCte, Statement.constructs, Query.constructs, SetExpr.constructs,
      constructsOf] at hl
  · obtain rfl : l = .update := by
      simpa [lockingSelect, Statement.constructs, Query.constructs, SetExpr.constructs,
        constructsOf] using hl
    decide +kernel

theorem parser_showsLocks : parser.ShowsLocks := by
  intro sql statements parsed a ha l hl
  simp only [parser] at parsed
  split at parsed
  · next k hk =>
    cases parsed
    obtain rfl := List.mem_singleton.mp ha
    exact known_showsLocks (List.mem_of_find?_eq_some hk) hl
  · cases parsed

/-- One character for every byte. -/
def hash (bytes : Bytes) : String := .ofList (bytes.map fun b => .ofNat b.toNat)

def toVecNamed (e : CacheEnvelope Bytes) : Except String Bytes :=
  if e.tableTags = ∅ then
    .ok (toLeBytes e.version.toUInt64 ++ toLeBytes e.generation ++ toLeBytes e.expiresAtMs ++
      e.payload)
  else .error "table tags are not supported"

def fromSlice (bytes : Bytes) : Except String (CacheEnvelope Bytes) :=
  if bytes.length < 24 then .error "unexpected end of file"
  else .ok {
    version := (fromLeBytes (bytes.take 8)).toUInt16
    generation := fromLeBytes ((bytes.drop 8).take 8)
    expiresAtMs := fromLeBytes ((bytes.drop 16).take 8)
    tableTags := ∅
    payload := bytes.drop 24 }

def externals : Externals Bytes := ⟨parser, hash, toVecNamed, fromSlice, List.length⟩

theorem hash_injective : Function.Injective hash := by
  intro a b h
  have hv (m : UInt8) : (Char.ofNat m.toNat).toNat = m.toNat := by
    have hm := m.toNat_lt
    have hc : m.toNat.isValidChar := .inl (by omega)
    rw [Char.ofNat, dif_pos hc]
    rfl
  have hc (m n : UInt8) (he : Char.ofNat m.toNat = Char.ofNat n.toNat) : m = n := by
    apply UInt8.toNat_inj.mp
    rw [← hv m, he, hv n]
  exact List.map_injective_iff.mpr hc (String.ofList_inj.mp h)

theorem externals_roundTrips : externals.RoundTrips := by
  intro e bytes h
  simp only [externals, toVecNamed] at h
  split at h
  · next ht =>
    cases h
    have h1 := length_toLeBytes e.version.toUInt64
    have h2 := length_toLeBytes e.generation
    have h3 := length_toLeBytes e.expiresAtMs
    have hl : ¬ 8 + (8 + (8 + e.payload.length)) < 24 := by omega
    simp [externals, fromSlice, ← ht, List.drop_append, List.drop_of_length_le,
      h1, h2, h3, hl]
  · cases h

def keyInput : CacheKeyInput where
  version := "1"
  dataSource := "default"
  driver := "sqlite"
  tenant := none
  nameSpace := "ns"
  statementId := "s"
  sql := "SELECT 1"
  parameters := []

theorem fits_of_short {input : CacheKeyInput} (sql : input.sql = "SELECT 1")
    (short : ∀ bytes ∈ input.parameters :: (input.components "SELECT 1").map utf8,
      bytes.length < 2 ^ 64) : input.Fits externals.parser := by
  intro metadata hm generation bytes hb
  have hc : metadata.canonicalSql = "SELECT 1" := by
    have h : (SqlMetadata.parse parser "SELECT 1").map SqlMetadata.canonicalSql = .ok "SELECT 1" := by
      decide
    rw [sql] at hm
    rw [show SqlMetadata.parse parser "SELECT 1" = .ok metadata from hm] at h
    exact Except.ok.inj h
  rw [hc, CacheKeyInput.stream, List.mem_append] at hb
  rcases hb with hb | hb
  · exact short bytes (List.mem_cons_of_mem _ hb)
  · rcases List.mem_pair.mp hb with rfl | rfl
    · simp
    · exact short _ List.mem_cons_self

theorem keyInput_fits : keyInput.Fits externals.parser := fits_of_short rfl (by decide)

/-- Envelopes for the sample query carry no table tags, so that they can be encoded. -/
theorem encodes {input : CacheKeyInput} {g : UInt64} {key : CacheKey} (sql : input.sql = "SELECT 1")
    (built : CacheKey.build externals input g = .ok key) (payload : Bytes) (ttl : Duration)
    (now : UInt64) : ∃ bytes, (CacheEnvelope.new key payload ttl now).encode externals = .ok bytes := by
  have htags : key.tableTags = ∅ := by
    obtain ⟨metadata, hm, rfl⟩ := CacheKey.build_ok built
    have h : (SqlMetadata.parse parser "SELECT 1").map SqlMetadata.tableTags = .ok ∅ := by decide
    rw [sql] at hm
    rw [show SqlMetadata.parse parser "SELECT 1" = .ok metadata from hm] at h
    exact Except.ok.inj h
  simp [CacheEnvelope.encode, CacheEnvelope.new, externals, toVecNamed, htags, Except.mapError]

/-- A backend that answers whatever the environment wants. -/
def adversary : CacheBackend := ⟨Unit, (op : BackendOp) → op.Res, fun op ch s => (ch op, s)⟩

/-- The ideal store itself. -/
def ideal : CacheBackend where
  State := Store
  Choice := Unit
  perform op _ s :=
    match op with
    | .get k => (.ok (s.content k), s)
    | .put k bytes _ => (.ok (), s.put k bytes)
    | .generation n => (.ok (s.counter n), s)
    | .bumpGeneration n => (.ok (saturatingAdd (s.counter n) 1), s.bump n)

theorem ideal_keeps (op : BackendOp) (s : Store) :
    Store.Keeps op (ideal.perform op () s).1 s (ideal.perform op () s).2 := by
  cases op with
  | get | put | generation | bumpGeneration => exact ⟨rfl, rfl⟩

def idealHealthy : ideal.Healthy where
  abs s := s
  serves op _ s := by
    cases op with
    | get => exact ⟨.inr rfl, .refl s⟩
    | put | generation | bumpGeneration => exact ⟨rfl, .refl _⟩

/-- The ideal store, which reports the faults that the environment wants and does nothing then. -/
def faulty : CacheBackend where
  State := Store
  Choice := Option CacheError
  perform op fault s :=
    match fault, op with
    | some e, .get _ => (.error e, s)
    | some e, .put _ _ _ => (.error e, s)
    | some e, .generation _ => (.error e, s)
    | some e, .bumpGeneration _ => (.error e, s)
    | none, op => ideal.perform op () s

def faultyHonest : faulty.Honest where
  abs s := s
  answers op fault s := by
    cases fault with
    | none => exact .inl (idealHealthy.serves op () s)
    | some e =>
      cases op with
      | get k | generation n => exact .inr ⟨⟨e, rfl⟩, .refl s⟩
      | put k v ttl => exact .inr ⟨⟨e, rfl⟩, .inl (.refl s)⟩
      | bumpGeneration n => exact .inr ⟨⟨e, rfl⟩, .inl (.refl s)⟩

/-- The generation is 0, and what the backend says to the other calls. -/
def answers (got : Except CacheError (Option Bytes)) (put : Except CacheError Unit) :
    adversary.Choice
  | .get _ => got
  | .put _ _ _ => put
  | .generation _ => .ok 0
  | .bumpGeneration _ => .ok 1

end RbatisCache.Sample
