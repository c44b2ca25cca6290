import RbatisCache.Collections.DashMap
import RbatisCache.Interleaving.Program
import RbatisCache.Spi.Backend

/-! The backend over moka (`rbatis-cache-moka`). Every call is a program over the atomic operations of
moka's cache and of the counter. -/
namespace RbatisCache.Moka
open Interleaving
open Interleaving.Prog (perform)

structure MokaCacheConfig where
  ttl : Duration := .fromSecs 300

/-- The fields of the backend that never change. -/
structure MokaCacheBackend where
  nameSpace : String
  config : MokaCacheConfig := {}

/-- What moka holds under a key, and since when. -/
structure Stored where
  value : Bytes
  insertedAt : UInt64

/-- The fields that the calls share. -/
structure World where
  cache : DashMap String Stored
  generation : UInt64

inductive Op where
  | cacheGet (key : String)
  | cacheInsert (key : String) (value : Bytes)
  /-- `self.generation.fetch_add(1, …)`. -/
  | fetchAdd
  deriving DecidableEq

@[reducible] def Op.Res : Op → Type
  | .cacheGet _ => Option Bytes
  | .cacheInsert _ _ => Unit
  | .fetchAdd => UInt64

instance : ∀ op : Op, DecidableEq op.Res
  | .cacheGet _ => inferInstanceAs (DecidableEq (Option Bytes))
  | .cacheInsert _ _ => inferInstanceAs (DecidableEq Unit)
  | .fetchAdd => inferInstanceAs (DecidableEq UInt64)

namespace MokaCacheBackend
variable (blake3 : Bytes → String) (self : MokaCacheBackend)

abbrev Code (α : Type) := Prog Op Op.Res α

def entryKey (digest : String) : String := self.nameSpace ++ (":entry:" ++ digest)

def generationKey (nameSpace : String) : String :=
  self.nameSpace ++ (":generation:" ++ blake3 (utf8 nameSpace))

def get (key : String) : Code (Except CacheError (Option Bytes)) := do
  return .ok (← perform (Op.cacheGet (self.entryKey key)))

/-- The time to live is that of the cache, whatever `_ttl` says. -/
def put (key : String) (value : Bytes) (_ttl : Duration) : Code (Except CacheError Unit) := do
  perform (Op.cacheInsert (self.entryKey key) value)
  return .ok ()

/-- `bytes.try_into().ok().map(u64::from_le_bytes)`. -/
def ofRecord (bytes : Bytes) : Option UInt64 :=
  if bytes.length = 8 then some (fromLeBytes bytes) else none

def generation (nameSpace : String) : Code (Except CacheError UInt64) := do
  let found ← perform (Op.cacheGet (self.generationKey blake3 nameSpace))
  return .ok ((found.bind ofRecord).getD 0)

def bumpGeneration (nameSpace : String) : Code (Except CacheError UInt64) := do
  let old ← perform Op.fetchAdd
  let new := saturatingAdd old 1
  perform (Op.cacheInsert (self.generationKey blake3 nameSpace) (toLeBytes new))
  return .ok new

def call : (op : BackendOp) → Code op.Res
  | .get key => self.get key
  | .put key value ttl => self.put key value ttl
  | .generation nameSpace => self.generation blake3 nameSpace
  | .bumpGeneration nameSpace => self.bumpGeneration blake3 nameSpace

end MokaCacheBackend

/-- `MokaCacheBackend::new`. -/
def World.new : World := ⟨∅, 0⟩

/-- The clock, and what moka has evicted or let expire since the last operation. -/
structure Choice where
  now : UInt64
  lost : List String := []

/-- An operation after moka's own housekeeping. -/
def act (op : Op) (ch : Choice) (w : World) : op.Res × World :=
  let cache := w.cache.retain fun k _ => !ch.lost.contains k
  match op with
  | .cacheGet key => ((cache.lookup key).map Stored.value, { w with cache := cache })
  | .cacheInsert key value => ((), { w with cache := cache.insert key ⟨value, ch.now⟩ })
  | .fetchAdd => (w.generation, ⟨cache, w.generation + 1⟩)

def machine (T : Type) : Machine T Op Op.Res Choice World where
  perform _ op ch w := some (act op ch w)

/-- A returned call with its answer. -/
abbrev Reply := Sigma BackendOp.Res

/-- Any number of calls on one backend. -/
def initial {T : Type} (blake3 : Bytes → String) (self : MokaCacheBackend) (calls : T → BackendOp) :
    Config T Op Op.Res World Reply :=
  ⟨.new, [], fun t => do return ⟨calls t, ← self.call blake3 (calls t)⟩⟩

section
variable {blake3 : Bytes → String} {self : MokaCacheBackend}

theorem entryKey_inj {j k : String} (h : self.entryKey j = self.entryKey k) : j = k :=
  (String.append_right_inj _).mp ((String.append_right_inj _).mp h)

theorem entryKey_ne_generationKey (k n : String) :
    self.entryKey k ≠ self.generationKey blake3 n := by
  intro h
  have := congrArg String.toList ((String.append_right_inj _).mp h)
  simp at this

theorem generationKey_inj (hash : Function.Injective blake3) {m n : String}
    (h : self.generationKey blake3 m = self.generationKey blake3 n) : m = n :=
  utf8_inj (hash ((String.append_right_inj _).mp ((String.append_right_inj _).mp h)))

theorem ofRecord_toLeBytes (n : UInt64) : MokaCacheBackend.ofRecord (toLeBytes n) = some n := by
  rw [MokaCacheBackend.ofRecord, if_pos (length_toLeBytes n), fromLeBytes_toLeBytes]

end
end RbatisCache.Moka
