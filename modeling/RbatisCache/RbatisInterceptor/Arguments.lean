import RbatisCache.Rbs.Plain
import RbatisCache.RbatisInterceptor.RoundTrips

/-! Which argument lists share a cache key. Their bytes keep neither the widths of integers nor the
names of extensions, and all lists that cannot be encoded have the same bytes. -/
namespace RbatisCache
open MessagePack RbatisInterceptor RbatisInterceptor.RbatisCacheInterceptor

namespace Rbs
variable {S : Serde} {xs ys : List Value}

/-- The message of an argument list. -/
def argsMessage (args : List Value) : Message := .array (args.map Value.serialize)

def Serde.Accepts (S : Serde) (args : List Value) : Prop := S.refuses (argsMessage args) = none

/-- Every length in an argument list fits in 32 bits. -/
def Short (args : List Value) : Prop := (argsMessage args).Fits

/-- The encoding can tell the argument lists apart. -/
structure Serde.Tells (S : Serde) (xs ys : List Value) : Prop where
  accepts : S.Accepts xs ∨ S.Accepts ys
  plain : xs.map Value.plain ≠ ys.map Value.plain

private theorem argsMessage_eq_iff :
    argsMessage xs = argsMessage ys ↔ xs.map Value.plain = ys.map Value.plain := by
  rw [argsMessage, argsMessage, Message.array.injEq, Value.map_serialize_eq_iff]

private theorem argsToVecNamed_codec (args : List Value) :
    S.codec.argsToVecNamed args = S.write (argsMessage args) := rfl

private theorem argsToBytes_of_accepts (h : S.Accepts xs) :
    S.codec.argsToBytes xs = (argsMessage xs).encode := by
  unfold ValueCodec.argsToBytes
  rw [argsToVecNamed_codec, Serde.write, h]

private theorem argsToBytes_of_refused (h : ¬ S.Accepts xs) : S.codec.argsToBytes xs = [] := by
  obtain ⟨e, refused⟩ := Option.ne_none_iff_exists'.mp h
  unfold ValueCodec.argsToBytes
  rw [argsToVecNamed_codec, Serde.write, refused]

private theorem argsToBytes_ne_nil (h : S.Accepts xs) : S.codec.argsToBytes xs ≠ [] := by
  rw [argsToBytes_of_accepts h]
  exact Message.encode_array_ne_nil _

/-- Lists that the encoding can tell apart have different bytes. -/
theorem Serde.Tells.bytes (h : S.Tells xs ys) (fx : Short xs) (fy : Short ys) :
    S.codec.argsToBytes xs ≠ S.codec.argsToBytes ys := by
  by_cases hx : S.Accepts xs
  · by_cases hy : S.Accepts ys
    · rw [argsToBytes_of_accepts hx, argsToBytes_of_accepts hy]
      intro same
      exact h.plain (argsMessage_eq_iff.mp (Message.encode_inj fx fy same))
    · rw [argsToBytes_of_refused hy]
      exact argsToBytes_ne_nil hx
  · have hy : S.Accepts ys := h.accepts.resolve_left hx
    rw [argsToBytes_of_refused hx]
    exact (argsToBytes_ne_nil hy).symm

/-- All others have the same bytes. -/
theorem Serde.tells_of_bytes (h : S.codec.argsToBytes xs ≠ S.codec.argsToBytes ys) : S.Tells xs ys := by
  constructor
  · by_contra refused
    push Not at refused
    rw [argsToBytes_of_refused refused.1, argsToBytes_of_refused refused.2] at h
    exact h rfl
  · intro same
    unfold ValueCodec.argsToBytes at h
    rw [argsToVecNamed_codec, argsToVecNamed_codec, argsMessage_eq_iff.mpr same] at h
    exact h rfl

end Rbs

section
variable {I : RbatisCacheInterceptor} {X : Externals Bytes} {S : Rbs.Serde} {call : Call Rbs.Value}
variable {xs ys : List Rbs.Value}

/-- The key input of a call with other arguments. -/
def inputWith (I : RbatisCacheInterceptor) (S : Rbs.Serde) (call : Call Rbs.Value)
    (args : List Rbs.Value) : CacheKeyInput :=
  buildKeyInput I S.codec { call with args := args }

/-- For one statement, two argument lists never lead to the same cache key. -/
structure KeptApart (I : RbatisCacheInterceptor) (X : Externals Bytes) (S : Rbs.Serde)
    (call : Call Rbs.Value) (xs ys : List Rbs.Value) : Prop where
  bytes : S.codec.argsToBytes xs ≠ S.codec.argsToBytes ys
  digests : ∀ g kx ky, CacheKey.build X (inputWith I S call xs) g = .ok kx →
    CacheKey.build X (inputWith I S call ys) g = .ok ky → kx.digest ≠ ky.digest

/-- Argument lists that are not both refused and whose plain forms differ never share a cache key, if
their lengths fit in the format; and no other lists are kept apart. -/
theorem arguments_kept_apart (hash : Function.Injective X.blake3)
    (fx : (inputWith I S call xs).Fits X.parser) (fy : (inputWith I S call ys).Fits X.parser) :
    (S.Tells xs ys → Rbs.Short xs → Rbs.Short ys → KeptApart I X S call xs ys) ∧
      (KeptApart I X S call xs ys → S.Tells xs ys) := by
  constructor
  · intro tells sx sy
    have bytes := tells.bytes sx sy
    refine ⟨bytes, fun g kx ky hx hy same => ?_⟩
    obtain ⟨mx, my, -, -, streams⟩ := CacheKey.stream_of_digest hash hx hy fx fy same
    exact bytes (CacheKeyInput.stream_inj streams).2.2
  · exact fun apart => Rbs.Serde.tells_of_bytes apart.bytes

end

/-- `NULL` and the text `NULL` have different keys. -/
theorem null_and_text_kept_apart :
    KeptApart Sample.interceptor Sample.externals Sample.serde (Sample.rowCall 1) [.null]
      [.string "NULL"] := by
  refine (arguments_kept_apart Sample.hash_injective (Sample.fits_of_short rfl (by decide))
    (Sample.fits_of_short rfl (by decide))).1 ⟨.inl rfl, by decide⟩ ?_ ?_
  · exact MessagePack.Message.fits_array.mpr ⟨by decide, List.forall_mem_singleton.mpr trivial⟩
  · refine MessagePack.Message.fits_array.mpr ⟨by decide, List.forall_mem_singleton.mpr ?_⟩
    change (MessagePack.Message.utf8 "NULL").length < 256 ^ 4
    decide

/-- The same number in two widths has one key. -/
theorem widths_share_key : ∃ kx ky,
    CacheKey.build Sample.externals
      (inputWith Sample.interceptor Sample.serde (Sample.rowCall 1) [.i32 1]) 0 = .ok kx ∧
    CacheKey.build Sample.externals
      (inputWith Sample.interceptor Sample.serde (Sample.rowCall 1) [.i64 1]) 0 = .ok ky ∧
    kx.digest = ky.digest ∧
    Sample.serde.codec.argsToBytes [.i32 1] = Sample.serde.codec.argsToBytes [.i64 1] ∧
    ([.i32 1] : List Rbs.Value) ≠ [.i64 1] ∧ Function.Injective Sample.externals.blake3 := by
  have bytes : Sample.serde.codec.argsToBytes [.i32 1] = Sample.serde.codec.argsToBytes [.i64 1] := by
    decide
  refine ⟨_, _, rfl, rfl, ?_, bytes, by decide, Sample.hash_injective⟩
  unfold inputWith buildKeyInput
  rw [bytes]

end RbatisCache
