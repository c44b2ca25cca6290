import RbatisCache.Spi.Sql

/-! The functions of other crates that the cache is built on. -/
namespace RbatisCache

/-- The wire format of one entry (`envelope.rs`). `P` is the type of payloads, which the cache
moves around without looking at them. -/
structure CacheEnvelope (P : Type) where
  version : UInt16
  generation : UInt64
  expiresAtMs : UInt64
  tableTags : Finset String
  payload : P
  deriving DecidableEq

structure Externals (P : Type) where
  parser : SqlParser
  /-- BLAKE3 of a byte string, in hexadecimal. -/
  blake3 : Bytes → String
  /-- `rmp_serde::to_vec_named`, its error already rendered. -/
  toVecNamed : CacheEnvelope P → Except String Bytes
  /-- `rmp_serde::from_slice`, its error already rendered. -/
  fromSlice : Bytes → Except String (CacheEnvelope P)
  /-- `payload.len()`. -/
  len : P → Nat

/-- Decoding inverts encoding. -/
def Externals.RoundTrips {P : Type} (X : Externals P) : Prop :=
  ∀ e bytes, X.toVecNamed e = .ok bytes → X.fromSlice bytes = .ok e

end RbatisCache
