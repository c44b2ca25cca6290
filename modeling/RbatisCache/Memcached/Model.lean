import RbatisCache.Interleaving.Program
import RbatisCache.Spi.Primitives

/-! The generation counters of the backend over memcached (`rbatis-cache-memcached`). They live on the
server, and each message to it is one of its atomic operations. -/
namespace RbatisCache.Memcached
open Interleaving
open Interleaving.Prog (perform)

structure MemcachedConfiguration where
  keyPrefix : String := "rbatis:cache"

inductive Op where
  | add (key : String) (value : UInt64)
  | increment (key : String) (amount : UInt64)
  | get (key : String)
  deriving DecidableEq

/-- What the client makes of the reply; the error is the text of a `MemcacheError`. -/
@[reducible] def Op.Res : Op → Type
  | .add _ _ => Except String Unit
  | .increment _ _ => Except String UInt64
  | .get _ => Except String (Option UInt64)

instance : ∀ op : Op, DecidableEq op.Res
  | .add _ _ => inferInstanceAs (DecidableEq (Except String Unit))
  | .increment _ _ => inferInstanceAs (DecidableEq (Except String UInt64))
  | .get _ => inferInstanceAs (DecidableEq (Except String (Option UInt64)))

abbrev Code (α : Type) := Prog Op Op.Res α

namespace MemcachedClientWrapper

def clientGetU64 (key : String) : Code (Except String (Option UInt64)) := perform (Op.get key)

def clientIncr (key : String) : Code (Except String UInt64) := do
  let _ ← perform (Op.add key 0)
  perform (Op.increment key 1)

end MemcachedClientWrapper

namespace MemcachedCacheBackend
open MemcachedClientWrapper
variable (blake3 : Bytes → String) (config : MemcachedConfiguration)

def generationKey (nameSpace : String) : String :=
  config.keyPrefix ++ (":generation:" ++ blake3 (utf8 nameSpace))

def generation (nameSpace : String) : Code (Except CacheError UInt64) := do
  match ← clientGetU64 (generationKey blake3 config nameSpace) with
  | .error e => return .error (.backend e)
  | .ok raw => return .ok (raw.getD 0)

def bumpGeneration (nameSpace : String) : Code (Except CacheError UInt64) := do
  match ← clientIncr (generationKey blake3 config nameSpace) with
  | .error e => return .error (.backend e)
  | .ok new => return .ok new

end MemcachedCacheBackend

/-- The counters on the server, by key. -/
abbrev World := String → Option UInt64

/-- What the protocol leaves open: the error of an `add` that is not stored, what an increment does to an
absent key, and the error of a client that the reply does not reach. -/
structure Choice where
  notStored : String := ""
  missing : Except String UInt64 × Option UInt64 := (.error "", none)
  lost : Option String := none

/-- The server. A counter has 64 bits and wraps around. -/
def serve : (op : Op) → Choice → World → op.Res × World
  | .add key value, ch, w =>
    match w key with
    | some _ => (.error ch.notStored, w)
    | none => (.ok (), Function.update w key (some value))
  | .increment key amount, ch, w =>
    match w key with
    | some n => (.ok (n + amount), Function.update w key (some (n + amount)))
    | none => (ch.missing.1, Function.update w key ch.missing.2)
  | .get key, _, w => (.ok (w key), w)

section
variable {key : String} {value amount n : UInt64} {ch : Choice} {w : World}

theorem serve_add_present (found : w key = some n) :
    serve (.add key value) ch w = (.error ch.notStored, w) := by
  simp only [serve, found]

theorem serve_add_absent (absent : w key = none) :
    serve (.add key value) ch w = (.ok (), Function.update w key (some value)) := by
  simp only [serve, absent]

theorem serve_increment (found : w key = some n) :
    serve (.increment key amount) ch w =
      (.ok (n + amount), Function.update w key (some (n + amount))) := by
  simp only [serve, found]

end

/-- The reply on its way to the client. -/
def deliver (lost : Option String) : (op : Op) → op.Res → op.Res
  | .add _ _, r | .increment _ _, r | .get _, r => lost.elim r .error

def machine (T : Type) : Machine T Op Op.Res Choice World where
  perform _ op ch w := some (deliver ch.lost op (serve op ch w).1, (serve op ch w).2)

inductive Call where
  | generation (nameSpace : String)
  | bumpGeneration (nameSpace : String)
  deriving DecidableEq

def Call.program (blake3 : Bytes → String) (config : MemcachedConfiguration) :
    Call → Code (Except CacheError UInt64)
  | .generation nameSpace => MemcachedCacheBackend.generation blake3 config nameSpace
  | .bumpGeneration nameSpace => MemcachedCacheBackend.bumpGeneration blake3 config nameSpace

/-- Any number of clients of one server, on which all counters are absent. -/
def initial {T : Type} (blake3 : Bytes → String) (config : MemcachedConfiguration) (calls : T → Call) :
    Config T Op Op.Res World (Except CacheError UInt64) :=
  ⟨fun _ => none, [], fun t => (calls t).program blake3 config⟩

end RbatisCache.Memcached
