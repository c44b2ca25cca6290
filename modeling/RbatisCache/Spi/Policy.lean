import RbatisCache.Spi.Primitives

/-! Cache policies (`policy.rs` and the policy half of `backend.rs`). -/
namespace RbatisCache

inductive CacheFailureMode where
  | failOpen
  | failClosed
  deriving DecidableEq, Repr

inductive TransactionCacheMode where
  | bypass
  | defer
  deriving DecidableEq, Repr

inductive InvalidationStrategy where
  | namespaceGeneration
  | tableGeneration
  deriving DecidableEq, Repr

structure CachePolicy where
  ttl : Duration := .fromMins 5
  maxValueSize : Nat := 1024 * 1024
  invalidation : InvalidationStrategy := .namespaceGeneration
  cacheNull : Bool := true
  nullTtl : Option Duration := some (.fromSecs 10)
  failureMode : CacheFailureMode := .failOpen
  transactionMode : TransactionCacheMode := .bypass
  useCacheFilter : Option (String → Bool) := none
  blocking : Bool := true
  l1MaxEntries : Nat := 256

/-- `CachePolicy::with_ttl`. -/
def CachePolicy.withTtl (policy : CachePolicy) (ttl : Duration) : CachePolicy :=
  { policy with ttl := ttl }

end RbatisCache
