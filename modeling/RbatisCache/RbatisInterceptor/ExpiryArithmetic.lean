import RbatisCache.RbatisInterceptor.Executors
import RbatisCache.Spi.Envelope
import RbatisCache.Spi.LocalBackend
import RbatisCache.Spi.Policy

/-! How the three layers turn one TTL into an expiry: `Instant + Duration`, which panics past the
platform's latest instant, a cast that keeps the low 64 bits, and a conversion that saturates. -/
namespace RbatisCache
variable {V P : Type}

/-- `Instant + Duration`. -/
def Instant.plus (latest now : Instant) (d : Duration) : Option Instant :=
  if now + d.nanos ≤ latest then some (now + d.nanos) else none

/-- The latest `Instant` where it is a signed 64-bit number of seconds and a fraction. -/
def Instant.unixLatest : Instant := 2 ^ 63 * 1000000000 - 1

/-- `L1Cache::put` with the panic of its first statement. -/
def L1Cache.tryPut (latest : Instant) (c : L1Cache V) (executorId : Int) (digest : String) (value : V)
    (now : Instant) : Option (L1Cache V) :=
  (Instant.plus latest now c.ttl).map fun _ => c.put executorId digest value now

namespace CachePolicy

/-- The expiry of the slot that `L1Cache::put` leaves behind. -/
def l1Expiry (latest : Instant) (c : L1Cache V) (executorId : Int) (digest : String) (value : V)
    (now : Instant) : Option Instant :=
  ((c.tryPut latest executorId digest value now).bind fun c =>
    c.entries.lookup executorId).map L1Entry.expiresAt

/-- The expiry of the entry that `LocalBackend::put` leaves behind. -/
def localExpiry (b : LocalBackend) (key : String) (bytes : Bytes) (ttl : Duration) (now : UInt64) :
    Option UInt64 :=
  ((b.put key bytes ttl now).2.entries.lookup (LocalBackend.entryKey key)).map Entry.expiresAtMs

/-- What storing one value under a policy does, with any key and at these clock readings. -/
structure StoresSoundly (P : Type) (latest : Instant) (c : L1Cache V) (b : LocalBackend) (value : V)
    (policy : CachePolicy) (instant : Instant) (now : UInt64) : Prop where
  /-- No expiry panics or wraps around. -/
  l1 : ∀ executorId digest, l1Expiry latest { c with ttl := policy.ttl } executorId digest value
    instant = some (instant + policy.ttl.nanos)
  entry : ∀ key bytes, ∃ expiry, localExpiry b key bytes policy.ttl now = some expiry ∧
    expiry.toNat = min (now.toNat + policy.ttl.asMillis) (2 ^ 64 - 1)
  envelope : ∀ key (payload : P), (CacheEnvelope.new key payload policy.ttl now).expiresAtMs.toNat =
    min (now.toNat + policy.ttl.asMillis) (2 ^ 64 - 1)
  /-- The entry outlives an envelope that was made no later. -/
  outlives : ∀ key bytes cacheKey (payload : P) made, made ≤ now →
    ∀ expiry ∈ localExpiry b key bytes policy.ttl now,
      (CacheEnvelope.new cacheKey payload policy.ttl made).expiresAtMs ≤ expiry
  /-- No shorter TTL expires later, in any layer. -/
  l1_mono : ∀ shorter : Duration, 1 ≤ shorter.asMillis → shorter.nanos ≤ policy.ttl.nanos →
    ∀ executorId digest,
      ∀ early ∈ l1Expiry latest { c with ttl := shorter } executorId digest value instant,
      ∀ late ∈ l1Expiry latest { c with ttl := policy.ttl } executorId digest value instant,
        early ≤ late
  local_mono : ∀ shorter : Duration, 1 ≤ shorter.asMillis → shorter.nanos ≤ policy.ttl.nanos →
    ∀ key bytes, ∀ early ∈ localExpiry b key bytes shorter now,
      ∀ late ∈ localExpiry b key bytes policy.ttl now, early ≤ late
  envelope_mono : ∀ shorter : Duration, 1 ≤ shorter.asMillis → shorter.nanos ≤ policy.ttl.nanos →
    ∀ key (payload : P), (CacheEnvelope.new key payload shorter now).expiresAtMs ≤
      (CacheEnvelope.new key payload policy.ttl now).expiresAtMs

section
variable {latest instant : Instant} {c : L1Cache V} {b : LocalBackend} {value : V}
variable {policy : CachePolicy} {ttl shorter : Duration} {now : UInt64} {executorId : Int}
variable {digest key : String} {bytes : Bytes}

/-! ### The expiry of each layer -/

private theorem l1Expiry_eq (latest : Instant) (c : L1Cache V) (executorId : Int) (digest : String)
    (value : V) (now : Instant) :
    l1Expiry latest c executorId digest value now = Instant.plus latest now c.ttl := by
  unfold l1Expiry L1Cache.tryPut Instant.plus
  split
  · rw [Option.map_some, Option.bind_some, L1Cache.lookup_put_self, Option.map_some]
  · rfl

private theorem localExpiry_eq (long : 1 ≤ ttl.asMillis) (b : LocalBackend) (key : String)
    (bytes : Bytes)
    (now : UInt64) :
    localExpiry b key bytes ttl now = some (saturatingAdd now (.ofNat ttl.asMillis)) := by
  have positive : ttl.isZero = false := Duration.isZero_of_asMillis long
  simp only [localExpiry, LocalBackend.put, LocalBackend.insertEntry, positive, Bool.false_eq_true,
    if_false, AList.lookup_insert, Option.map_some]

private theorem toNat_envelope (key : CacheKey) (payload : P) (ttl : Duration) (now : UInt64) :
    (CacheEnvelope.new key payload ttl now).expiresAtMs.toNat =
      min (now.toNat + ttl.asMillis) (2 ^ 64 - 1) :=
  toNat_saturatingAdd_u64OrMax now ttl.asMillis

private theorem asMillis_le (le : shorter.nanos ≤ ttl.nanos) : shorter.asMillis ≤ ttl.asMillis :=
  Nat.div_le_div_right le

/-- An expiry that is as intended is the latest there is: truncation only makes a TTL shorter. -/
theorem localExpiry_mono (long : 1 ≤ ttl.asMillis) (short : 1 ≤ shorter.asMillis)
    (intended : (saturatingAdd now (.ofNat ttl.asMillis)).toNat =
      min (now.toNat + ttl.asMillis) (2 ^ 64 - 1))
    (le : shorter.nanos ≤ ttl.nanos) : ∀ early ∈ localExpiry b key bytes shorter now,
      ∀ late ∈ localExpiry b key bytes ttl now, early ≤ late := by
  intro early hearly late hlate
  rw [localExpiry_eq short, Option.mem_some_iff] at hearly
  rw [localExpiry_eq long, Option.mem_some_iff] at hlate
  subst hearly hlate
  rw [UInt64.le_iff_toNat_le, intended, toNat_saturatingAdd, UInt64.toNat_ofNat']
  have := asMillis_le le
  have : shorter.asMillis % 2 ^ 64 ≤ shorter.asMillis := Nat.mod_le _ _
  omega

private theorem l1Expiry_mono (le : shorter.nanos ≤ ttl.nanos) :
    ∀ early ∈ l1Expiry latest { c with ttl := shorter } executorId digest value instant,
      ∀ late ∈ l1Expiry latest { c with ttl := ttl } executorId digest value instant,
        early ≤ late := by
  intro early hearly late hlate
  rw [l1Expiry_eq, Instant.plus, Option.mem_def, Option.ite_none_right_eq_some] at hearly hlate
  obtain ⟨-, hearly⟩ := hearly
  obtain ⟨-, hlate⟩ := hlate
  cases hearly
  cases hlate
  exact Nat.add_le_add_left le instant

namespace StoresSoundly

private theorem representable (sound : StoresSoundly P latest c b value policy instant now) :
    instant + policy.ttl.nanos ≤ latest := by
  have added := sound.l1 0 ""
  rw [l1Expiry_eq, Instant.plus, Option.ite_none_right_eq_some] at added
  exact added.1

private theorem untruncated (long : 1 ≤ policy.ttl.asMillis)
    (sound : StoresSoundly P latest c b value policy instant now) :
    policy.ttl.asMillis < 2 ^ 64 ∨ 2 ^ 64 - 1 ≤ now.toNat + policy.ttl.asMillis % 2 ^ 64 := by
  obtain ⟨expiry, stored, intended⟩ := sound.entry "" []
  rw [localExpiry_eq long, Option.some_inj] at stored
  exact (saturatingAdd_ofNat_iff now policy.ttl.asMillis).mp (stored ▸ intended)

private theorem intro (long : 1 ≤ policy.ttl.asMillis)
    (representable : instant + policy.ttl.nanos ≤ latest)
    (untruncated : policy.ttl.asMillis < 2 ^ 64 ∨
      2 ^ 64 - 1 ≤ now.toNat + policy.ttl.asMillis % 2 ^ 64) :
    StoresSoundly P latest c b value policy instant now := by
  have intended := (saturatingAdd_ofNat_iff now policy.ttl.asMillis).mpr untruncated
  constructor
  case l1 =>
    intro executorId digest
    rw [l1Expiry_eq, Instant.plus, if_pos representable]
  case entry =>
    intro key bytes
    exact ⟨_, localExpiry_eq long b key bytes now, intended⟩
  case envelope =>
    intro key payload
    exact toNat_envelope key payload policy.ttl now
  case outlives =>
    intro key bytes cacheKey payload made before expiry stored
    rw [localExpiry_eq long, Option.mem_some_iff] at stored
    subst stored
    rw [UInt64.le_iff_toNat_le, toNat_envelope, intended]
    have := UInt64.le_iff_toNat_le.mp before
    omega
  case l1_mono =>
    intro shorter _ le executorId digest
    exact l1Expiry_mono le
  case local_mono =>
    intro shorter short le key bytes
    exact localExpiry_mono long short intended le
  case envelope_mono =>
    intro shorter _ le key payload
    rw [UInt64.le_iff_toNat_le, toNat_envelope, toNat_envelope]
    have := asMillis_le le
    omega

end StoresSoundly

/-- Storing computes its expiries soundly exactly for the TTLs that the platform's `Instant` has room
for and whose milliseconds fit into 64 bits (or that are cut down to a number of milliseconds after
which the clock ends). -/
theorem storesSoundly_iff (P : Type) (latest : Instant) (c : L1Cache V) (b : LocalBackend) (value : V)
    (policy : CachePolicy) (ttl : Duration) (long : 1 ≤ ttl.asMillis) (instant : Instant)
    (now : UInt64) : StoresSoundly P latest c b value (policy.withTtl ttl) instant now ↔
      instant + ttl.nanos ≤ latest ∧
        (ttl.asMillis < 2 ^ 64 ∨ 2 ^ 64 - 1 ≤ now.toNat + ttl.asMillis % 2 ^ 64) := by
  constructor
  · intro sound
    exact ⟨sound.representable, sound.untruncated long⟩
  · rintro ⟨representable, untruncated⟩
    exact .intro long representable untruncated

/-- Five minutes after a reboot, the default TTL. -/
theorem default_ttl_stores_soundly :
    StoresSoundly Bytes Instant.unixLatest (L1Cache.new 256 (.fromMins 5))
      (.withConfig {}) 8 (CachePolicy.withTtl {} (.fromMins 5)) 300000000000 1700000000000 :=
  (storesSoundly_iff Bytes Instant.unixLatest _ _ 8 {} (.fromMins 5) (by decide) 300000000000
    1700000000000).mpr ⟨by decide, .inl (by decide)⟩

/-- 2⁶⁴ milliseconds become none at all in the local backend, and `Duration::MAX` panics in L1. -/
theorem long_ttls_fail :
    ¬ StoresSoundly Bytes Instant.unixLatest (L1Cache.new 256 (.fromMins 5)) (.withConfig {}) 8
      (CachePolicy.withTtl {} ⟨2 ^ 64 * 1000000⟩) 300000000000 1700000000000 ∧
    ¬ StoresSoundly Bytes Instant.unixLatest (L1Cache.new 256 (.fromMins 5)) (.withConfig {}) 8
      (CachePolicy.withTtl {} .max) 300000000000 1700000000000 := by
  constructor
  · intro sound
    exact absurd (sound.untruncated (by decide)) (by decide)
  · intro sound
    exact absurd sound.representable (by decide)

end
end CachePolicy
end RbatisCache
