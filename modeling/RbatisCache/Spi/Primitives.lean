import Mathlib.Algebra.Group.Nat.Defs
import Mathlib.Data.List.Infix

/-! Rust values the crate computes with: byte strings, `u64`, text, durations and errors. -/
namespace RbatisCache

abbrev Bytes := List UInt8

/-- `u64::MAX`. -/
def u64Max : UInt64 := .ofNat (2 ^ 64 - 1)

/-- `u64::saturating_add`. -/
def saturatingAdd (a b : UInt64) : UInt64 :=
  if a.toNat + b.toNat < 2 ^ 64 then a + b else u64Max

theorem toNat_saturatingAdd (a b : UInt64) :
    (saturatingAdd a b).toNat = min (a.toNat + b.toNat) (2 ^ 64 - 1) := by
  unfold saturatingAdd
  split
  · next h =>
    rw [UInt64.toNat_add, Nat.mod_eq_of_lt h]
    omega
  · next h =>
    have hmax : u64Max.toNat = 2 ^ 64 - 1 := by decide
    omega

/-- `u64::try_from(n).unwrap_or(u64::MAX)`. -/
def u64OrMax (n : Nat) : UInt64 := if n < 2 ^ 64 then .ofNat n else u64Max

theorem toNat_u64OrMax (n : Nat) : (u64OrMax n).toNat = min n (2 ^ 64 - 1) := by
  unfold u64OrMax
  split
  · next h =>
    rw [UInt64.toNat_ofNat', Nat.mod_eq_of_lt h]
    omega
  · next h =>
    have hmax : u64Max.toNat = 2 ^ 64 - 1 := by decide
    omega

theorem u64OrMax_inj {m n : Nat} (hm : m < 2 ^ 64) (hn : n < 2 ^ 64)
    (h : u64OrMax m = u64OrMax n) : m = n := by
  simp only [u64OrMax, hm, hn, if_true] at h
  have hv := congrArg UInt64.toNat h
  rwa [UInt64.toNat_ofNat', UInt64.toNat_ofNat', Nat.mod_eq_of_lt hm, Nat.mod_eq_of_lt hn] at hv

/-- Saturation and the cast to `u64` agree on what the cast keeps, and on what saturates anyway. -/
theorem saturatingAdd_ofNat_iff (a : UInt64) (n : Nat) :
    (saturatingAdd a (.ofNat n)).toNat = min (a.toNat + n) (2 ^ 64 - 1) ↔
      n < 2 ^ 64 ∨ 2 ^ 64 - 1 ≤ a.toNat + n % 2 ^ 64 := by
  rw [toNat_saturatingAdd, UInt64.toNat_ofNat']
  have remainder : n % 2 ^ 64 < 2 ^ 64 := Nat.mod_lt _ (by decide)
  constructor
  · intro same
    by_contra hn
    obtain ⟨large, early⟩ := not_or.mp hn
    omega
  · rintro (small | late)
    · rw [Nat.mod_eq_of_lt small]
    · have : n % 2 ^ 64 ≤ n := Nat.mod_le _ _
      omega

theorem toNat_saturatingAdd_u64OrMax (a : UInt64) (n : Nat) :
    (saturatingAdd a (u64OrMax n)).toNat = min (a.toNat + n) (2 ^ 64 - 1) := by
  rw [toNat_saturatingAdd, toNat_u64OrMax]
  omega

/-- `u64::to_le_bytes`. -/
def toLeBytes (n : UInt64) : Bytes := (List.range 8).map fun i => .ofNat (n.toNat / 256 ^ i)

@[simp] theorem length_toLeBytes (n : UInt64) : (toLeBytes n).length = 8 := by simp [toLeBytes]

/-- `u64::from_le_bytes`. -/
def fromLeBytes (bytes : Bytes) : UInt64 :=
  .ofNat (bytes.foldr (fun b n => b.toNat + 256 * n) 0)

private theorem foldr_digits (k n : Nat) :
    ((List.range k).map fun i => UInt8.ofNat (n / 256 ^ i)).foldr (fun b m => b.toNat + 256 * m) 0 =
      n % 256 ^ k := by
  induction k generalizing n with
  | zero => simp [Nat.mod_one]
  | succ k ih =>
    rw [List.range_succ_eq_map, List.map_cons, List.foldr_cons, List.map_map]
    have h : (fun i => UInt8.ofNat (n / 256 ^ i)) ∘ Nat.succ =
        fun i => UInt8.ofNat (n / 256 / 256 ^ i) := by
      funext i
      simp [Nat.pow_succ, Nat.div_div_eq_div_mul, Nat.mul_comm]
    rw [h, ih, Nat.pow_succ', Nat.mod_mul]
    simp

@[simp] theorem fromLeBytes_toLeBytes (n : UInt64) : fromLeBytes (toLeBytes n) = n := by
  rw [fromLeBytes, toLeBytes, foldr_digits, Nat.mod_eq_of_lt (by exact n.toNat_lt)]
  exact UInt64.ofNat_toNat

theorem toLeBytes_inj {m n : UInt64} (h : toLeBytes m = toLeBytes n) : m = n := by
  rw [← fromLeBytes_toLeBytes m, h, fromLeBytes_toLeBytes]

/-- `str::as_bytes`. -/
def utf8 (s : String) : Bytes := s.toUTF8.data.toList

theorem utf8_inj {s t : String} (h : utf8 s = utf8 t) : s = t :=
  String.toByteArray_inj.mp (ByteArray.ext (Array.toList_inj.mp h))

/-- `str::to_ascii_lowercase`. -/
def toAsciiLowercase (s : String) : String := String.ofList (s.toList.map Char.toLower)

/-- `str::contains`. -/
def contains (s pattern : String) : Bool := decide (pattern.toList <:+: s.toList)

theorem contains_toAsciiLowercase {s pattern : String} (h : contains s pattern = true) :
    contains (toAsciiLowercase s) (toAsciiLowercase pattern) = true := by
  have hi : pattern.toList <:+: s.toList := of_decide_eq_true h
  simp only [contains, toAsciiLowercase, String.toList_ofList]
  exact decide_eq_true (hi.map Char.toLower)

/-- `std::time::Duration`. -/
structure Duration where
  nanos : Nat
  deriving DecidableEq, Repr

namespace Duration
/-- `Duration::MAX`. -/
def max : Duration := ⟨2 ^ 64 * 1000000000 - 1⟩

def fromSecs (n : Nat) : Duration := ⟨n * 1000000000⟩
def fromMillis (n : Nat) : Duration := ⟨n * 1000000⟩
def fromMins (n : Nat) : Duration := fromSecs (n * 60)
def asMillis (d : Duration) : Nat := d.nanos / 1000000
def asSecs (d : Duration) : Nat := d.nanos / 1000000000
def isZero (d : Duration) : Bool := d.nanos == 0

theorem isZero_of_asMillis {d : Duration} (long : 1 ≤ d.asMillis) : d.isZero = false := by
  by_contra zero
  have nanos : d.nanos = 0 := by simpa [isZero] using zero
  simp [asMillis, nanos] at long

end Duration

/-- `error.rs`: the only errors a backend or the interceptors report. -/
inductive CacheError where
  | sql (message : String)
  | codec (message : String)
  | backend (message : String)
  | loader (message : String)
  deriving DecidableEq, Repr

/-- `fmt::Display for CacheError`. -/
def CacheError.display : CacheError → String
  | .sql message => "cache SQL parse failed: " ++ message
  | .codec message => "cache envelope codec failed: " ++ message
  | .backend message => "cache backend failed: " ++ message
  | .loader message => "cache loader failed: " ++ message

/-- The counters an interceptor can increment. -/
inductive Metric where
  | hit | miss | bypass | backendError | load | invalidation
  deriving DecidableEq, Repr

/-- `metrics.rs`: the counters as one snapshot. -/
structure CacheMetrics where
  hits : UInt64 := 0
  misses : UInt64 := 0
  bypasses : UInt64 := 0
  backendErrors : UInt64 := 0
  loads : UInt64 := 0
  invalidations : UInt64 := 0
  deriving DecidableEq, Repr

/-- `AtomicU64::fetch_add` wraps around. -/
def CacheMetrics.record (m : CacheMetrics) : Metric → CacheMetrics
  | .hit => { m with hits := m.hits + 1 }
  | .miss => { m with misses := m.misses + 1 }
  | .bypass => { m with bypasses := m.bypasses + 1 }
  | .backendError => { m with backendErrors := m.backendErrors + 1 }
  | .load => { m with loads := m.loads + 1 }
  | .invalidation => { m with invalidations := m.invalidations + 1 }

def CacheMetrics.counter (m : CacheMetrics) : Metric → UInt64
  | .hit => m.hits
  | .miss => m.misses
  | .bypass => m.bypasses
  | .backendError => m.backendErrors
  | .load => m.loads
  | .invalidation => m.invalidations

theorem CacheMetrics.counter_record (c : CacheMetrics) (m n : Metric) :
    (c.record m).counter n = c.counter n + if m = n then 1 else 0 := by
  cases m <;> cases n <;> simp [CacheMetrics.record, CacheMetrics.counter]

end RbatisCache
