import RbatisCache.Spi.Key

/-! Envelopes (`envelope.rs`). The clock reading of `now_ms` is an argument. -/
namespace RbatisCache.CacheEnvelope
variable {P : Type}

/-- `duration_ms`. -/
def durationMs (d : Duration) : UInt64 := u64OrMax d.asMillis

/-- `CacheEnvelope::new`. -/
def new (key : CacheKey) (payload : P) (ttl : Duration) (now : UInt64) : CacheEnvelope P where
  version := 1
  generation := key.generation
  expiresAtMs := saturatingAdd now (durationMs ttl)
  tableTags := key.tableTags
  payload := payload

def encode (X : Externals P) (e : CacheEnvelope P) : Except CacheError Bytes :=
  (X.toVecNamed e).mapError .codec

def decode (X : Externals P) (bytes : Bytes) : Except CacheError (CacheEnvelope P) :=
  (X.fromSlice bytes).mapError .codec

def isFresh (e : CacheEnvelope P) (generation now : UInt64) : Bool :=
  e.version == 1 && e.generation == generation && decide (now < e.expiresAtMs)

theorem isFresh_iff {e : CacheEnvelope P} {generation now : UInt64} :
    e.isFresh generation now = true ↔
      e.version = 1 ∧ e.generation = generation ∧ now < e.expiresAtMs := by
  simp [isFresh, and_assoc]

theorem isFresh_generation {e : CacheEnvelope P} {generation now : UInt64}
    (h : e.isFresh generation now = true) : e.generation = generation :=
  (isFresh_iff.mp h).2.1

theorem new_isFresh {key : CacheKey} {payload : P} {ttl : Duration} {stored now : UInt64}
    (h : now < (new key payload ttl stored).expiresAtMs) :
    (new key payload ttl stored).isFresh key.generation now = true :=
  isFresh_iff.mpr ⟨rfl, rfl, h⟩

theorem decode_encode {X : Externals P} (hX : X.RoundTrips) {e : CacheEnvelope P} {bytes : Bytes}
    (h : e.encode X = .ok bytes) : decode X bytes = .ok e := by
  unfold encode at h
  cases hv : X.toVecNamed e with
  | error m => simp [hv, Except.mapError] at h
  | ok b =>
    obtain rfl : b = bytes := by simpa [hv, Except.mapError] using h
    simp [decode, hX e b hv, Except.mapError]

end RbatisCache.CacheEnvelope
