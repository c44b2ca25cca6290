import RbatisCache.Memcached.Model

/-! How long the server keeps what `put` stores. The TTL is sent as a whole number of seconds in 32
bits, which the server reads as a lifetime only up to thirty days. -/
namespace RbatisCache.Memcached
open Interleaving
open Interleaving.Prog (perform)

/-- The protocol's `set` command. -/
structure SetCommand where
  key : String
  payload : Bytes
  exptime : UInt32

/-- A program that sends `set` commands; an error is the text of a `MemcacheError`. -/
abbrev Storing (α : Type) := Prog SetCommand (fun _ => Except String Unit) α

structure MemcachedClientWrapper where
  compression : Bool

/-- `encode` is `CompressorTranscoder::encode`; what cannot be compressed is sent as it is. -/
def MemcachedClientWrapper.putObject (encode : Bytes → Except String Bytes)
    (wrapper : MemcachedClientWrapper) (key : String) (value : Bytes) (ttlSeconds : UInt32) :
    Storing (Except String Unit) :=
  let payload :=
    if wrapper.compression then
      match encode value with
      | .ok compressed => compressed
      | .error _ => value
    else value
  perform { key := key, payload := payload, exptime := ttlSeconds }

namespace MemcachedCacheBackend

def entryKey (config : MemcachedConfiguration) (digest : String) : String :=
  config.keyPrefix ++ (":entry:" ++ digest)

/-- `ttl.as_secs().max(1) as u32` -/
def ttlSeconds (ttl : Duration) : UInt32 := .ofNat (max ttl.asSecs 1)

def put (encode : Bytes → Except String Bytes) (config : MemcachedConfiguration)
    (wrapper : MemcachedClientWrapper) (key : String) (value : Bytes) (ttl : Duration) :
    Storing (Except CacheError Unit) := do
  match ← wrapper.putObject encode (entryKey config key) value (ttlSeconds ttl) with
  | .error e => return .error (.backend e)
  | .ok () => return .ok ()

end MemcachedCacheBackend

/-! ### What the server makes of an expiration time -/

inductive Lifetime where
  | unlimited
  | seconds (count : Nat)
  | untilUnixTime (timestamp : Nat)
  deriving DecidableEq

def lifetime (exptime : UInt32) : Lifetime :=
  if exptime = 0 then .unlimited
  else if exptime.toNat ≤ 2592000 then .seconds exptime.toNat
  else .untilUnixTime exptime.toNat

/-- A lifetime of whole seconds that is the TTL but for a fraction of a second. -/
def KeptFor (ttl : Duration) (kept : Lifetime) : Prop :=
  ∃ count, kept = .seconds count ∧ (Duration.fromSecs count).nanos ≤ ttl.nanos ∧
    ttl.nanos < (Duration.fromSecs (count + 1)).nanos

private theorem lifetime_eq_seconds {exptime : UInt32} {count : Nat} :
    lifetime exptime = .seconds count ↔
      exptime.toNat = count ∧ 1 ≤ count ∧ count ≤ 2592000 := by
  have positive : exptime = 0 ↔ exptime.toNat = 0 := UInt32.toNat_inj.symm
  unfold lifetime
  split
  · next zero =>
    constructor
    · intro h
      cases h
    · rintro ⟨rfl, hone, -⟩
      rw [positive.mp zero] at hone
      omega
  · next nonzero =>
    rw [positive] at nonzero
    split
    · next short =>
      constructor
      · intro h
        obtain rfl := Lifetime.seconds.inj h
        exact ⟨rfl, Nat.pos_of_ne_zero nonzero, short⟩
      · rintro ⟨rfl, -, -⟩
        rfl
    · next long =>
      constructor
      · intro h
        cases h
      · rintro ⟨rfl, -, hle⟩
        exact absurd hle long

section
variable {ttl : Duration}

private theorem keptFor_iff {kept : Lifetime} : KeptFor ttl kept ↔ kept = .seconds ttl.asSecs := by
  constructor
  · rintro ⟨count, rfl, hle, hlt⟩
    have hcount : count = ttl.asSecs := by
      simp only [Duration.fromSecs, Duration.asSecs] at hle hlt ⊢
      omega
    rw [hcount]
  · rintro rfl
    refine ⟨ttl.asSecs, rfl, ?_, ?_⟩
    · simp only [Duration.fromSecs, Duration.asSecs]
      omega
    · simp only [Duration.fromSecs, Duration.asSecs]
      omega

/-- From one second on, the TTL's seconds are what is left of them in 32 bits. -/
theorem toNat_ttlSeconds (long : 1 ≤ ttl.asSecs) :
    (MemcachedCacheBackend.ttlSeconds ttl).toNat = ttl.asSecs % 2 ^ 32 := by
  rw [MemcachedCacheBackend.ttlSeconds, Nat.max_eq_left long]
  exact UInt32.toNat_ofNat

private theorem keptFor_ttlSeconds (long : 1 ≤ ttl.asSecs) :
    KeptFor ttl (lifetime (MemcachedCacheBackend.ttlSeconds ttl)) ↔ ttl.asSecs ≤ 2592000 := by
  rw [keptFor_iff, lifetime_eq_seconds, toNat_ttlSeconds long]
  constructor
  · rintro ⟨-, -, short⟩
    exact short
  · intro short
    have fits : ttl.asSecs < 2 ^ 32 := by omega
    exact ⟨Nat.mod_eq_of_lt fits, long, short⟩

end

/-- What `put` stores is kept for its TTL, rounded down to seconds, exactly if that is at most
thirty days. -/
theorem put_keeps_iff (encode : Bytes → Except String Bytes) (config : MemcachedConfiguration)
    (wrapper : MemcachedClientWrapper) (key : String) (value : Bytes) {ttl : Duration}
    (long : (Duration.fromSecs 1).nanos ≤ ttl.nanos) :
    (MemcachedCacheBackend.put encode config wrapper key value ttl).Only
        (fun command => KeptFor ttl (lifetime command.exptime)) ↔
      ttl.asSecs ≤ 2592000 := by
  have seconds : 1 ≤ ttl.asSecs := by
    simp only [Duration.fromSecs, Duration.asSecs] at long ⊢
    omega
  rw [← keptFor_ttlSeconds seconds]
  constructor
  · rintro ⟨sent, -⟩
    exact sent
  · intro kept
    refine ⟨kept, fun reply => ?_⟩
    cases reply with
    | error e => trivial
    | ok stored => trivial

/-- A day is kept for a day. -/
theorem one_day_kept :
    (MemcachedCacheBackend.put (fun bytes => .ok bytes) {} ⟨false⟩ "key" [1]
      (Duration.fromSecs 86400)).Only
      fun command => KeptFor (Duration.fromSecs 86400) (lifetime command.exptime) :=
  (put_keeps_iff (fun bytes => .ok bytes) {} ⟨false⟩ "key" [1] (by decide)).mpr (by decide)

/-- A second over thirty days is a date of the year 1970, and 2^32 seconds are no limit at all. -/
theorem long_ttl_not_kept :
    lifetime (MemcachedCacheBackend.ttlSeconds (Duration.fromSecs 2592001)) =
        .untilUnixTime 2592001 ∧
    lifetime (MemcachedCacheBackend.ttlSeconds (Duration.fromSecs (2 ^ 32))) = .unlimited ∧
    ¬ ∀ ttl : Duration, (Duration.fromSecs 1).nanos ≤ ttl.nanos →
      (MemcachedCacheBackend.put (fun bytes => .ok bytes) {} ⟨false⟩ "key" [1] ttl).Only
        fun command => KeptFor ttl (lifetime command.exptime) := by
  refine ⟨by decide, by decide, fun kept => ?_⟩
  obtain ⟨sent, -⟩ := kept (Duration.fromSecs 2592001) (by decide)
  obtain ⟨count, hcount, -⟩ := sent
  have wrong : lifetime (MemcachedCacheBackend.ttlSeconds (Duration.fromSecs 2592001)) =
    .untilUnixTime 2592001 := by decide
  cases wrong.symm.trans hcount

end RbatisCache.Memcached
