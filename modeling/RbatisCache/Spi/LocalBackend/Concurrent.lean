import Mathlib.Algebra.GroupWithZero.Nat
import RbatisCache.Interleaving.Program
import RbatisCache.Spi.LocalBackend

/-! The in-process backend under concurrent calls. An operation on one key, one shard or one counter is
atomic; an operation on all of `entries` visits the shards one after the other. -/
namespace RbatisCache.LocalBackend.Concurrent
open Interleaving

/-- How `DashMap` spreads its keys. -/
structure Layout where
  shards : Nat
  shardOf : String → Nat
  inRange : ∀ key, shardOf key < shards

/-- An `Arc<AtomicU64>` of `generations`, numbered in the order of creation. -/
abbrev CounterId := Nat

/-- What an iterator has seen. -/
abbrev Entries := List (Sigma fun _ : String => Entry)

inductive Op where
  | nowMs
  /-- `generations.get(namespace)`. -/
  | generationsGet (nameSpace : String)
  /-- `generations.entry(namespace).or_insert_with(..)`. -/
  | generationsEntry (nameSpace : String)
  | load (counter : CounterId)
  | fetchAdd (counter : CounterId)
  /-- `seq.fetch_add(1, ..)`. -/
  | nextSeq
  | entriesGet (key : String)
  /-- `entries.remove_if(key, |_, e| e.expires_at_ms <= now)`. -/
  | entriesRemoveIf (key : String) (now : UInt64)
  /-- `entries.get_mut(key)` and what `get` does with the entry. -/
  | entriesTouch (key : String)
  | entriesInsert (key : String) (entry : Entry)
  | entriesRemove (key : String)
  | shardLen (shard : Nat)
  /-- `entries.retain(|_, e| e.expires_at_ms > now)`. -/
  | shardRetain (shard : Nat) (now : UInt64)
  | shardIter (shard : Nat)
  /-- `entries.iter_mut()` and what the LFU policy does with the entries. -/
  | shardLower (shard : Nat) (least : Nat)
  /-- Another round of a loop that has used up its rounds. -/
  | spin
  deriving DecidableEq

@[reducible] def Op.Res : Op → Type
  | .nowMs | .load _ | .fetchAdd _ | .nextSeq => UInt64
  | .generationsGet _ => Option CounterId
  | .generationsEntry _ => CounterId
  | .entriesGet _ => Option Entry
  | .shardLen _ => Nat
  | .shardIter _ => Entries
  | .entriesRemoveIf _ _ | .entriesTouch _ | .entriesInsert _ _ | .entriesRemove _ | .shardRetain _ _
  | .shardLower _ _ | .spin => Unit

abbrev Code (α : Type) := Prog Op Op.Res α

/-! ### The methods -/

section
variable (blake3 : Bytes → String) (layout : Layout) (config : LocalBackendConfig)

def inTurn {β : Type} (visit : Nat → Code β) : List Nat → Code (List β)
  | [] => return []
  | shard :: rest => do
    let b ← visit shard
    return b :: (← inTurn visit rest)

/-- One shard after the other. -/
def eachShard {β : Type} (visit : Nat → Code β) : Code (List β) :=
  inTurn visit (List.range layout.shards)

/-- `entries.len()`. -/
def entriesLen : Code Nat := do
  return (← eachShard layout fun shard => Prog.perform (Op.shardLen shard)).sum

def entriesRetain (now : UInt64) : Code Unit := do
  let _ ← eachShard layout fun shard => Prog.perform (Op.shardRetain shard now)

def entriesIter : Code Entries := do
  return (← eachShard layout fun shard => Prog.perform (Op.shardIter shard)).flatten

def entriesLower (least : Nat) : Code Unit := do
  let _ ← eachShard layout fun shard => Prog.perform (Op.shardLower shard least)

/-- `min_by_key` with the key of the entry it finds. -/
def minKey {β : Type} [LinearOrder β] (measure : Entry → β) (entries : Entries) : Option String :=
  (entries.argmin fun e => measure e.2).map (·.1)

/-- The second half of `LfuPolicy::pick_victim`. -/
def pickLfu : Code (Option String) := do
  return minKey (fun e => toLex (e.accesses.toNat, e.insertSeq.toNat)) (← entriesIter layout)

def pickVictim : EvictionStrategy → Code (Option String)
  | .fifo => do return minKey (fun e => e.insertSeq.toNat) (← entriesIter layout)
  | .lru => do return minKey (fun e => e.lastAccessSeq.toNat) (← entriesIter layout)
  | .lfu => do
    match ((← entriesIter layout).map fun e => e.2.accesses.toNat).min? with
    | none => pickLfu layout
    | some least =>
      entriesLower layout least
      pickLfu layout

/-- The loop of `evict_if_needed`, for a number of rounds. -/
def evictLoop (max : Nat) : Nat → Code Unit
  | 0 => Prog.perform Op.spin
  | rounds + 1 => do
    if (← entriesLen layout) < max then return ()
    else
      match ← pickVictim layout config.eviction with
      | some k =>
        Prog.perform (Op.entriesRemove k)
        evictLoop max rounds
      | none => return ()

def evictIfNeeded (rounds : Nat) (now : UInt64) : Code Unit :=
  match config.maxEntries with
  | none => return ()
  | some max => do
    if (← entriesLen layout) < max then return ()
    else
      entriesRetain layout now
      evictLoop layout config max rounds

def get (key : String) : Code (Except CacheError (Option Bytes)) := do
  let storageKey := entryKey key
  let now ← Prog.perform Op.nowMs
  let value := (← Prog.perform (Op.entriesGet storageKey)).bind fun e =>
    if now < e.expiresAtMs then some e.bytes else none
  -- lazy cleanup
  match ← Prog.perform (Op.entriesGet storageKey) with
  | some entry =>
    if entry.expiresAtMs ≤ now then
      Prog.perform (Op.entriesRemoveIf storageKey now)
      Prog.perform (Op.entriesTouch storageKey)
      return .ok value
    else
      Prog.perform (Op.entriesTouch storageKey)
      return .ok value
  | none =>
    Prog.perform (Op.entriesTouch storageKey)
    return .ok value

/-- The end of `put` and `bump_generation`. -/
def insertEntry (rounds : Nat) (storageKey : String) (bytes : Bytes) (now expiresAtMs : UInt64) :
    Code Unit := do
  evictIfNeeded layout config rounds now
  let seq ← Prog.perform Op.nextSeq
  Prog.perform (Op.entriesInsert storageKey ⟨bytes, expiresAtMs, seq, seq, 0⟩)

def put (rounds : Nat) (key : String) (value : Bytes) (ttl : Duration) :
    Code (Except CacheError Unit) := do
  let storageKey := entryKey key
  let ttl := if ttl.isZero then .fromSecs 60 else ttl
  let now ← Prog.perform Op.nowMs
  insertEntry layout config rounds storageKey value now (saturatingAdd now (.ofNat ttl.asMillis))
  return .ok ()

def readGeneration (nameSpace : String) : Code UInt64 := do
  match ← Prog.perform (Op.generationsGet nameSpace) with
  | some counter => Prog.perform (Op.load counter)
  | none => return 0

def bump (nameSpace : String) : Code UInt64 := do
  let counter ← Prog.perform (Op.generationsEntry nameSpace)
  return saturatingAdd (← Prog.perform (Op.fetchAdd counter)) 1

def generation (nameSpace : String) : Code (Except CacheError UInt64) := do
  return .ok (← readGeneration nameSpace)

def bumpGeneration (rounds : Nat) (nameSpace : String) : Code (Except CacheError UInt64) := do
  let new ← bump nameSpace
  let now ← Prog.perform Op.nowMs
  insertEntry layout config rounds (generationKey blake3 nameSpace) (toLeBytes new) now u64Max
  return .ok new

/-- One round of the cleanup thread. -/
def prune : Code Unit := do
  entriesRetain layout (← Prog.perform Op.nowMs)

def call (rounds : Nat) : (op : BackendOp) → Code op.Res
  | .get key => get key
  | .put key value ttl => put layout config rounds key value ttl
  | .generation nameSpace => generation nameSpace
  | .bumpGeneration nameSpace => bumpGeneration blake3 layout config rounds nameSpace

inductive Task where
  | call (op : BackendOp)
  | prune
  deriving DecidableEq

/-- The answer of a call. -/
abbrev Reply := Option (Sigma BackendOp.Res)

def Task.program (rounds : Nat) : Task → Code Reply
  | .call op => do return some ⟨op, ← Concurrent.call blake3 layout config rounds op⟩
  | .prune => do
    Concurrent.prune layout
    return none

end

/-! ### The shared state -/

structure World where
  shard : Nat → DashMap String Entry
  generations : DashMap String CounterId
  counters : CounterId → UInt64
  /-- The number of counters created so far. -/
  created : CounterId
  seq : UInt64

namespace World

/-- `LocalBackend::with_config`. -/
def new : World := ⟨fun _ => ∅, ∅, fun _ => 0, 0, 0⟩

def setShard (w : World) (shard : Nat) (entries : DashMap String Entry) : World :=
  { w with shard := Function.update w.shard shard entries }

def generationsEntry (w : World) (nameSpace : String) : CounterId × World :=
  match w.generations.lookup nameSpace with
  | some counter => (counter, w)
  | none => (w.created, { w with
      generations := w.generations.insert nameSpace w.created
      counters := Function.update w.counters w.created 0
      created := w.created + 1 })

/-- `fetch_add` on a counter. -/
def increment (w : World) (counter : CounterId) : World :=
  { w with counters := Function.update w.counters counter (w.counters counter + 1) }

def entriesTouch (layout : Layout) (w : World) (key : String) : World :=
  let entries := w.shard (layout.shardOf key)
  match entries.lookup key with
  | some e =>
    let touched := { e with
      lastAccessSeq := w.seq
      accesses := saturatingAdd e.accesses 1 }
    { w.setShard (layout.shardOf key) (entries.replace key touched) with seq := w.seq + 1 }
  | none => w

/-- What `generation` answers when it is not interrupted. -/
def readGeneration (w : World) (nameSpace : String) : UInt64 :=
  ((w.generations.lookup nameSpace).map w.counters).getD 0

end World

/-! ### The generation map -/

namespace World
variable {w : World} {m n : String} {counter : CounterId}

/-- Every counter belongs to one namespace. -/
structure Owned (w : World) : Prop where
  known : ∀ n counter, w.generations.lookup n = some counter → counter < w.created
  owner : ∀ m n counter, w.generations.lookup m = some counter →
    w.generations.lookup n = some counter → m = n

theorem owned_new : new.Owned where
  known n counter lookup := by cases lookup
  owner m n counter lookup := by cases lookup

theorem readGeneration_of_lookup (lookup : w.generations.lookup n = some counter) :
    w.readGeneration n = w.counters counter := by
  rw [readGeneration, lookup]
  rfl

theorem readGeneration_of_absent (absent : w.generations.lookup n = none) : w.readGeneration n = 0 := by
  rw [readGeneration, absent]
  rfl

/-- All that an entry can do. -/
inductive Entered (w : World) (n : String) : Prop
  | found {counter : CounterId} (lookup : w.generations.lookup n = some counter)
    (result : w.generationsEntry n = (counter, w))
  | created (absent : w.generations.lookup n = none)
    (result : w.generationsEntry n = (w.created, { w with
      generations := w.generations.insert n w.created
      counters := Function.update w.counters w.created 0
      created := w.created + 1 }))

theorem entered (w : World) (n : String) : w.Entered n := by
  cases lookup : w.generations.lookup n with
  | some counter =>
    refine .found lookup ?_
    simp only [generationsEntry, lookup]
  | none =>
    refine .created lookup ?_
    simp only [generationsEntry, lookup]

theorem lookup_entry (w : World) (n : String) :
    (w.generationsEntry n).2.generations.lookup n = some (w.generationsEntry n).1 := by
  cases w.entered n with
  | found lookup result => rw [result, lookup]
  | created absent result => rw [result, AList.lookup_insert]

theorem lookup_entry_of_lookup (n : String) (lookup : w.generations.lookup m = some counter) :
    (w.generationsEntry n).2.generations.lookup m = some counter := by
  cases w.entered n with
  | found _ result => rwa [result]
  | created absent result =>
    rw [result]
    exact DashMap.lookup_insert_of_absent _ absent lookup

/-- A counter that is there after an entry is the one that was entered, or was there before. -/
theorem lookup_of_entry (lookup : (w.generationsEntry n).2.generations.lookup m = some counter) :
    w.generations.lookup m = some counter ∨ w.generations.lookup n = none ∧ m = n ∧
      counter = w.created := by
  cases w.entered n with
  | found _ result =>
    rw [result] at lookup
    exact .inl lookup
  | created absent result =>
    rw [result] at lookup
    rcases DashMap.lookup_of_insert lookup with ⟨same, new⟩ | ⟨-, old⟩
    · exact .inr ⟨absent, same, new⟩
    · exact .inl old

theorem Owned.entry (owned : w.Owned) (n : String) : (w.generationsEntry n).2.Owned where
  known m counter lookup := by
    have le : w.created ≤ (w.generationsEntry n).2.created := by
      cases w.entered n with
      | found _ result => rw [result]
      | created _ result =>
        rw [result]
        exact Nat.le_succ _
    rcases lookup_of_entry lookup with old | ⟨absent, -, rfl⟩
    · exact (owned.known m counter old).trans_le le
    · cases w.entered n with
      | found there => rw [absent] at there; cases there
      | created _ result =>
        rw [result]
        exact Nat.lt_succ_self _
  owner l m counter hl hm := by
    rcases lookup_of_entry hl with oldL | ⟨-, newL, created⟩
    · rcases lookup_of_entry hm with oldM | ⟨-, -, created⟩
      · exact owned.owner l m counter oldL oldM
      · exact absurd (owned.known l counter oldL) (created ▸ Nat.lt_irrefl _)
    · rcases lookup_of_entry hm with oldM | ⟨-, newM, -⟩
      · exact absurd (owned.known m counter oldM) (created ▸ Nat.lt_irrefl _)
      · exact newL.trans newM.symm

/-- A counter is created for its namespace, as zero. -/
theorem Owned.readGeneration_entry (owned : w.Owned) (n m : String) :
    (w.generationsEntry n).2.readGeneration m = w.readGeneration m := by
  cases w.entered n with
  | found _ result => rw [result]
  | created absent result =>
    cases lookup : w.generations.lookup m with
    | some counter =>
      have ne : counter ≠ w.created := Nat.ne_of_lt (owned.known m counter lookup)
      rw [readGeneration_of_lookup lookup,
        readGeneration_of_lookup (lookup_entry_of_lookup n lookup), result]
      exact Function.update_of_ne ne _ _
    | none =>
      rw [readGeneration_of_absent lookup]
      by_cases same : m = n
      · subst same
        rw [readGeneration_of_lookup (lookup_entry w m), result]
        exact Function.update_self _ _ _
      · refine readGeneration_of_absent ?_
        rw [result, AList.lookup_insert_ne same, lookup]

theorem readGeneration_increment_self (lookup : w.generations.lookup n = some counter) :
    (w.increment counter).readGeneration n = w.readGeneration n + 1 := by
  rw [readGeneration_of_lookup lookup,
    readGeneration_of_lookup (w := w.increment counter) lookup]
  exact Function.update_self _ _ _

theorem Owned.readGeneration_increment_ne (owned : w.Owned)
    (lookup : w.generations.lookup n = some counter) (ne : m ≠ n) :
    (w.increment counter).readGeneration m = w.readGeneration m := by
  cases other : w.generations.lookup m with
  | none =>
    rw [readGeneration_of_absent other, readGeneration_of_absent (w := w.increment counter) other]
  | some c =>
    have apart : c ≠ counter := by
      rintro rfl
      exact ne (owned.owner m n c other lookup)
    rw [readGeneration_of_lookup other, readGeneration_of_lookup (w := w.increment counter) other]
    exact Function.update_of_ne apart _ _

end World

/-- An operation, with the clock it would read. -/
def act (layout : Layout) (now : UInt64) (op : Op) (w : World) : op.Res × World :=
  match op with
  | .nowMs => (now, w)
  | .generationsGet nameSpace => (w.generations.lookup nameSpace, w)
  | .generationsEntry nameSpace => w.generationsEntry nameSpace
  | .load counter => (w.counters counter, w)
  | .fetchAdd counter => (w.counters counter, w.increment counter)
  | .nextSeq => (w.seq, { w with seq := w.seq + 1 })
  | .entriesGet key => ((w.shard (layout.shardOf key)).lookup key, w)
  | .entriesRemoveIf key now =>
    let entries := w.shard (layout.shardOf key)
    match entries.lookup key with
    | some e =>
      ((), if e.expiresAtMs ≤ now then w.setShard (layout.shardOf key) (entries.erase key) else w)
    | none => ((), w)
  | .entriesTouch key => ((), w.entriesTouch layout key)
  | .entriesInsert key entry =>
    ((), w.setShard (layout.shardOf key) ((w.shard (layout.shardOf key)).insert key entry))
  | .entriesRemove key =>
    ((), w.setShard (layout.shardOf key) ((w.shard (layout.shardOf key)).erase key))
  | .shardLen shard => ((w.shard shard).len, w)
  | .shardRetain shard now =>
    ((), w.setShard shard ((w.shard shard).retain fun _ e => decide (now < e.expiresAtMs)))
  | .shardIter shard => ((w.shard shard).entries, w)
  | .shardLower shard least =>
    ((), w.setShard shard ((w.shard shard).mapValues fun e =>
      { e with accesses := .ofNat (e.accesses.toNat - least) }))
  | .spin => ((), w)

/-- The environment chooses the clock. -/
def machine (layout : Layout) (T : Type) : Machine T Op Op.Res UInt64 World where
  perform _ op now w := if op = .spin then none else some (act layout now op w)

/-- Any number of calls and cleanup rounds on one backend, whose loops take at most so many rounds. -/
def initial {T : Type} (blake3 : Bytes → String) (layout : Layout) (config : LocalBackendConfig)
    (rounds : Nat) (tasks : T → Task) : Config T Op Op.Res World Reply :=
  ⟨.new, [], fun t => (tasks t).program blake3 layout config rounds⟩

end RbatisCache.LocalBackend.Concurrent
