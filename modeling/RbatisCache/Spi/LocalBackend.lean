import RbatisCache.Collections.DashMap
import RbatisCache.Spi.Backend
import Mathlib.Data.Prod.Lex

/-! The in-process backend (`local/mod.rs`, `local/fifo.rs`, `local/lru.rs`, `local/lfu.rs`). -/
namespace RbatisCache

/-- An entry of the data map; generation records are stored next to the cached values. -/
structure Entry where
  bytes : Bytes
  expiresAtMs : UInt64
  insertSeq : UInt64
  lastAccessSeq : UInt64
  accesses : UInt64
  deriving DecidableEq, Repr

inductive EvictionStrategy where
  | fifo | lfu | lru
  deriving DecidableEq, Repr

structure LocalBackendConfig where
  maxEntries : Option Nat := none
  eviction : EvictionStrategy := .fifo

structure LocalBackend where
  entries : DashMap String Entry
  generations : DashMap String UInt64
  seq : UInt64
  config : LocalBackendConfig

namespace LocalBackend

/-- `LocalBackend::with_config`; the cleanup thread is part of the backend's `perform`. -/
def withConfig (config : LocalBackendConfig) : LocalBackend := ⟨∅, ∅, 0, config⟩

def entryKey (digest : String) : String := "entry:" ++ digest

def generationKey (blake3 : Bytes → String) (nameSpace : String) : String :=
  "generation:" ++ blake3 (utf8 nameSpace)

/-- One round of the cleanup thread, also the first half of `evict_if_needed`. -/
def prune (now : UInt64) (b : LocalBackend) : LocalBackend :=
  { b with entries := b.entries.retain fun _ e => decide (now < e.expiresAtMs) }

/-- `FifoPolicy::pick_victim`. -/
def fifoVictim (entries : DashMap String Entry) : Option String :=
  entries.minByKey fun e => e.insertSeq.toNat

/-- `LruPolicy::pick_victim`. -/
def lruVictim (entries : DashMap String Entry) : Option String :=
  entries.minByKey fun e => e.lastAccessSeq.toNat

/-- The first half of `LfuPolicy::pick_victim`: subtract the least access count from all. -/
def lfuLevel (entries : DashMap String Entry) : DashMap String Entry :=
  match (entries.entries.map fun e => e.2.accesses.toNat).min? with
  | none => entries
  | some least => entries.mapValues fun e =>
      { e with accesses := .ofNat (e.accesses.toNat - least) }

/-- The second half of `LfuPolicy::pick_victim`. -/
def lfuVictim (entries : DashMap String Entry) : Option String :=
  entries.minByKey fun e => toLex (e.accesses.toNat, e.insertSeq.toNat)

/-- `victim_key`, with what it does to the access counts. -/
def victimKey (strategy : EvictionStrategy) (entries : DashMap String Entry) :
    DashMap String Entry × Option String :=
  match strategy with
  | .fifo => (entries, fifoVictim entries)
  | .lfu => (lfuLevel entries, lfuVictim (lfuLevel entries))
  | .lru => (entries, lruVictim entries)

/-- The eviction loop of `evict_if_needed`. Every round but the last removes an entry, so as many
rounds as there are entries are enough. -/
def evictLoop (strategy : EvictionStrategy) (max : Nat) :
    Nat → DashMap String Entry → DashMap String Entry
  | 0, entries => entries
  | rounds + 1, entries =>
    if entries.len < max then entries
    else match victimKey strategy entries with
      | (entries, some k) => evictLoop strategy max rounds (entries.erase k)
      | (entries, none) => entries

def evictIfNeeded (now : UInt64) (b : LocalBackend) : LocalBackend :=
  match b.config.maxEntries with
  | none => b
  | some max =>
    if b.entries.len < max then b
    else
      let b := b.prune now
      { b with entries := evictLoop b.config.eviction max b.entries.len b.entries }

def get (b : LocalBackend) (key : String) (now : UInt64) :
    Except CacheError (Option Bytes) × LocalBackend :=
  let storageKey := entryKey key
  let value := (b.entries.lookup storageKey).bind fun e =>
    if now < e.expiresAtMs then some e.bytes else none
  -- lazy cleanup
  let entries := match b.entries.lookup storageKey with
    | some e => if e.expiresAtMs ≤ now then b.entries.erase storageKey else b.entries
    | none => b.entries
  match entries.lookup storageKey with
  | some e =>
    let touched := { e with
      lastAccessSeq := b.seq
      accesses := saturatingAdd e.accesses 1 }
    (.ok value, { b with entries := entries.replace storageKey touched, seq := b.seq + 1 })
  | none => (.ok value, { b with entries := entries })

/-- The entry written by `put` and `bump_generation`. -/
def insertEntry (storageKey : String) (bytes : Bytes) (expiresAtMs : UInt64) (b : LocalBackend) :
    LocalBackend :=
  { b with
    entries := b.entries.insert storageKey ⟨bytes, expiresAtMs, b.seq, b.seq, 0⟩
    seq := b.seq + 1 }

def put (b : LocalBackend) (key : String) (value : Bytes) (ttl : Duration) (now : UInt64) :
    Except CacheError Unit × LocalBackend :=
  let storageKey := entryKey key
  let ttl := if ttl.isZero then .fromSecs 60 else ttl
  -- `ttl.as_millis() as u64` keeps the low 64 bits
  let expiresAtMs := saturatingAdd now (.ofNat ttl.asMillis)
  (.ok (), (b.evictIfNeeded now).insertEntry storageKey value expiresAtMs)

def readGeneration (b : LocalBackend) (nameSpace : String) : UInt64 :=
  (b.generations.lookup nameSpace).getD 0

def bump (b : LocalBackend) (nameSpace : String) : UInt64 × LocalBackend :=
  let old := b.readGeneration nameSpace
  (saturatingAdd old 1, { b with generations := b.generations.insert nameSpace (old + 1) })

def bumpGeneration (blake3 : Bytes → String) (b : LocalBackend) (nameSpace : String)
    (now : UInt64) : Except CacheError UInt64 × LocalBackend :=
  let (new, b) := b.bump nameSpace
  (.ok new, (b.evictIfNeeded now).insertEntry (generationKey blake3 nameSpace) (toLeBytes new)
    u64Max)

/-- What a call does not decide itself: when the cleanup thread ran since the last call, and the
clock the call reads. -/
structure Environment where
  prunedAt : List UInt64 := []
  now : UInt64
  deriving DecidableEq

def perform (blake3 : Bytes → String) (op : BackendOp) (env : Environment) (b : LocalBackend) :
    op.Res × LocalBackend :=
  let b := env.prunedAt.foldl (fun b now => b.prune now) b
  match op with
  | .get key => b.get key env.now
  | .put key value ttl => b.put key value ttl env.now
  | .generation nameSpace => (.ok (b.readGeneration nameSpace), b)
  | .bumpGeneration nameSpace => b.bumpGeneration blake3 nameSpace env.now

def backend (blake3 : Bytes → String) : CacheBackend := ⟨LocalBackend, Environment, perform blake3⟩

/-! ### The local backend is an ideal store -/

/-- What the backend stores, without the records of its bookkeeping. -/
def abs (b : LocalBackend) : Store :=
  ⟨fun k => (b.entries.lookup (entryKey k)).map Entry.bytes, b.readGeneration⟩

/-- Every entry of `after` comes from one of `before` under the same key. -/
def Carries (R : Entry → Entry → Prop) (before after : DashMap String Entry) : Prop :=
  ∀ k, ∀ e ∈ after.lookup k, ∃ e' ∈ before.lookup k, R e' e

section
variable {R : Entry → Entry → Prop} {l m n : DashMap String Entry}

theorem Carries.of_lookup (refl : ∀ e, R e e)
    (h : ∀ {k e}, n.lookup k = some e → m.lookup k = some e) : Carries R m n :=
  fun _ e he => ⟨e, h he, refl e⟩

theorem Carries.trans (trans : ∀ a b c, R a b → R b c → R a c) (h : Carries R l m)
    (g : Carries R m n) : Carries R l n := by
  intro k e he
  obtain ⟨e', he', hr⟩ := g k e he
  obtain ⟨e'', he'', hr'⟩ := h k e' he'
  exact ⟨e'', he'', trans _ _ _ hr' hr⟩

private theorem carries_lfuLevel (level : ∀ e accesses, R e { e with accesses := accesses })
    (m : DashMap String Entry) : Carries R m (lfuLevel m) := by
  unfold lfuLevel
  split
  · exact Carries.of_lookup (fun e => level e e.accesses) id
  · intro k e he
    rw [Option.mem_def, DashMap.lookup_mapValues, Option.map_eq_some_iff] at he
    obtain ⟨e', he', rfl⟩ := he
    exact ⟨e', he', level e' _⟩

theorem carries_victimKey (level : ∀ e accesses, R e { e with accesses := accesses })
    (strategy : EvictionStrategy) (m : DashMap String Entry) :
    Carries R m (victimKey strategy m).1 := by
  cases strategy with
  | lfu => exact carries_lfuLevel level m
  | fifo | lru => exact Carries.of_lookup (fun e => level e e.accesses) id

theorem carries_evictLoop (level : ∀ e accesses, R e { e with accesses := accesses })
    (trans : ∀ a b c, R a b → R b c → R a c) (strategy : EvictionStrategy) (max rounds : Nat)
    (m : DashMap String Entry) : Carries R m (evictLoop strategy max rounds m) := by
  have refl (e : Entry) : R e e := level e e.accesses
  induction rounds generalizing m with
  | zero => exact Carries.of_lookup refl id
  | succ rounds ih =>
    unfold evictLoop
    split
    · exact Carries.of_lookup refl id
    · have hv := carries_victimKey level strategy m
      split
      · next m' k h =>
        rw [h] at hv
        exact (hv.trans trans (Carries.of_lookup refl DashMap.lookup_of_erase)).trans trans (ih _)
      · next m' h =>
        rwa [h] at hv

theorem carries_evictIfNeeded (level : ∀ e accesses, R e { e with accesses := accesses })
    (trans : ∀ a b c, R a b → R b c → R a c) (now : UInt64) (b : LocalBackend) :
    Carries R b.entries (b.evictIfNeeded now).entries := by
  have refl (e : Entry) : R e e := level e e.accesses
  unfold evictIfNeeded
  split
  · exact Carries.of_lookup refl id
  · split
    · exact Carries.of_lookup refl id
    · exact (Carries.of_lookup refl DashMap.lookup_of_retain).trans trans
        (carries_evictLoop level trans _ _ _ _)

private theorem carries_replace (refl : ∀ e, R e e) {k : String} {e e' : Entry}
    (h : m.lookup k = some e) (hr : R e e') : Carries R m (m.replace k e') := by
  intro l f hf
  rw [Option.mem_def, DashMap.lookup_replace, Option.map_eq_some_iff] at hf
  obtain ⟨f', hf', rfl⟩ := hf
  refine ⟨f', hf', ?_⟩
  split
  · next hl =>
    subst hl
    rw [h] at hf'
    cases hf'
    exact hr
  · exact refl f'

end

/-- Every entry of `after` is in `before`, up to the bookkeeping of the eviction policies. -/
def Loses (before after : DashMap String Entry) : Prop :=
  ∀ k, ∀ e ∈ after.lookup k, ∃ e' ∈ before.lookup k, e'.bytes = e.bytes

private theorem loses_retain (p : String → Entry → Bool) (m : DashMap String Entry) :
    Loses m (m.retain p) :=
  Carries.of_lookup (fun _ => rfl) DashMap.lookup_of_retain

private theorem loses_evictIfNeeded (now : UInt64) (b : LocalBackend) :
    Loses b.entries (b.evictIfNeeded now).entries :=
  carries_evictIfNeeded (fun _ _ => rfl) (fun _ _ _ hr hs => hr.trans hs) now b

@[simp] theorem evictIfNeeded_generations (now : UInt64) (b : LocalBackend) :
    (b.evictIfNeeded now).generations = b.generations := by
  unfold evictIfNeeded
  split
  · rfl
  · split <;> rfl

private theorem shrinks_of_loses {b b' : LocalBackend} (h : Loses b.entries b'.entries)
    (hg : b'.generations = b.generations) : b.abs.Shrinks b'.abs where
  content := by
    intro k v hv
    obtain ⟨e, he, rfl⟩ := Option.map_eq_some_iff.mp hv
    obtain ⟨e', he', hb⟩ := h _ e he
    exact Option.map_eq_some_iff.mpr ⟨e', he', hb⟩
  counter := by
    funext n
    simp only [abs, readGeneration, hg]

private theorem shrinks_pruned (times : List UInt64) (b : LocalBackend) :
    b.abs.Shrinks (times.foldl (fun b now => b.prune now) b).abs := by
  induction times generalizing b with
  | nil => exact Store.Shrinks.refl _
  | cons now times ih =>
    have h : b.abs.Shrinks (b.prune now).abs := shrinks_of_loses (loses_retain _ _) rfl
    exact h.trans (ih _)

theorem entryKey_inj {j k : String} (h : entryKey j = entryKey k) : j = k :=
  (String.append_right_inj _).mp h

theorem entryKey_ne_generationKey (blake3 : Bytes → String) (k n : String) :
    entryKey k ≠ generationKey blake3 n := by
  intro h
  have := congrArg String.toList h
  simp [entryKey, generationKey] at this

/-- What a `get` leaves of the entry that it returns. -/
def touch (seq : UInt64) (e : Entry) : Entry :=
  { e with lastAccessSeq := seq, accesses := saturatingAdd e.accesses 1 }

/-- All that a `get` can do. -/
inductive Got (b : LocalBackend) (key : String) (now : UInt64) : Prop
  | hit {e : Entry} (found : b.entries.lookup (entryKey key) = some e) (alive : now < e.expiresAtMs)
    (result : b.get key now = (.ok (some e.bytes), { b with
      entries := b.entries.replace (entryKey key) (touch b.seq e), seq := b.seq + 1 }))
  | expired {e : Entry} (found : b.entries.lookup (entryKey key) = some e)
    (past : e.expiresAtMs ≤ now)
    (result : b.get key now = (.ok none, { b with entries := b.entries.erase (entryKey key) }))
  | absent (missing : b.entries.lookup (entryKey key) = none) (result : b.get key now = (.ok none, b))

theorem got (b : LocalBackend) (key : String) (now : UInt64) : Got b key now := by
  cases he : b.entries.lookup (entryKey key) with
  | none =>
    refine .absent he ?_
    simp only [get, he, Option.bind_none]
  | some e =>
    by_cases past : e.expiresAtMs ≤ now
    · have late : ¬ now < e.expiresAtMs := UInt64.not_lt.mpr past
      refine .expired he past ?_
      simp only [get, he, past, late, if_true, if_false, Option.bind_some, AList.lookup_erase]
    · have alive : now < e.expiresAtMs := UInt64.not_le.mp past
      refine .hit he alive ?_
      simp only [get, he, past, alive, if_true, if_false, Option.bind_some, touch]

/-- A `get` only touches or drops entries. -/
theorem carries_get {R : Entry → Entry → Prop}
    (touched : ∀ e seq accesses, R e { e with lastAccessSeq := seq, accesses := accesses })
    (b : LocalBackend) (key : String) (now : UInt64) :
    Carries R b.entries (b.get key now).2.entries := by
  have refl (e : Entry) : R e e := touched e e.lastAccessSeq e.accesses
  cases got b key now with
  | hit found alive result =>
    rw [result]
    exact carries_replace refl found (touched _ _ _)
  | expired found past result =>
    rw [result]
    exact Carries.of_lookup refl DashMap.lookup_of_erase
  | absent missing result =>
    rw [result]
    exact Carries.of_lookup refl id

theorem get_generations (b : LocalBackend) (key : String) (now : UInt64) :
    (b.get key now).2.generations = b.generations := by
  cases got b key now with
  | hit _ _ result | expired _ _ result | absent _ result => rw [result]

private theorem shrinks_get (b : LocalBackend) (key : String) (now : UInt64) :
    b.abs.Shrinks (b.get key now).2.abs :=
  shrinks_of_loses (carries_get (fun _ _ _ => rfl) b key now) (get_generations b key now)

theorem get_answer (b : LocalBackend) (key : String) (now : UInt64) :
    (b.get key now).1 = .ok ((b.entries.lookup (entryKey key)).bind fun e =>
      if now < e.expiresAtMs then some e.bytes else none) := by
  cases got b key now with
  | hit found alive result => simp [result, found, alive]
  | expired found past result => simp [result, found, UInt64.not_lt.mpr past]
  | absent missing result => simp [result, missing]

private theorem get_value (b : LocalBackend) (key : String) (now : UInt64) :
    (b.get key now).1 = .ok none ∨ (b.get key now).1 = .ok (b.abs.content key) := by
  rw [get_answer]
  cases he : b.entries.lookup (entryKey key) with
  | none => exact .inl rfl
  | some e =>
    by_cases hn : now < e.expiresAtMs
    · right
      simp [abs, he, hn]
    · left
      simp [hn]

private theorem shrinks_put (b : LocalBackend) (key : String) (value : Bytes) (ttl : Duration)
    (now : UInt64) : (b.abs.put key value).Shrinks (b.put key value ttl now).2.abs where
  content := by
    intro k v hv
    obtain ⟨e, he, rfl⟩ := Option.map_eq_some_iff.mp hv
    by_cases hk : k = key
    · subst hk
      simp only [put, insertEntry, AList.lookup_insert, Option.some_inj] at he
      simp [← he]
    · simp only [put, insertEntry] at he
      rw [AList.lookup_insert_ne fun h => hk (entryKey_inj h)] at he
      obtain ⟨e', he', hb⟩ := loses_evictIfNeeded now b _ e he
      rw [Store.put_content_ne _ _ hk]
      exact Option.map_eq_some_iff.mpr ⟨e', he', hb⟩
  counter := by
    funext n
    simp [abs, readGeneration, put, insertEntry]

private theorem shrinks_bump (blake3 : Bytes → String) (b : LocalBackend) (n : String) (now : UInt64) :
    (b.abs.bump n).Shrinks (b.bumpGeneration blake3 n now).2.abs where
  content := by
    intro k v hv
    obtain ⟨e, he, rfl⟩ := Option.map_eq_some_iff.mp hv
    simp only [bumpGeneration, insertEntry] at he
    rw [AList.lookup_insert_ne (entryKey_ne_generationKey blake3 k n)] at he
    obtain ⟨e', he', hb⟩ := loses_evictIfNeeded now (b.bump n).2 _ e he
    exact Option.map_eq_some_iff.mpr ⟨e', he', hb⟩
  counter := by
    funext m
    by_cases hm : m = n
    · subst hm
      simp [abs, readGeneration, bumpGeneration, bump, insertEntry]
    · rw [Store.bump_counter_ne _ hm]
      simp [abs, readGeneration, bumpGeneration, bump, insertEntry, AList.lookup_insert_ne hm]

private theorem serves (blake3 : Bytes → String) (op : BackendOp) (env : Environment)
    (b : LocalBackend) :
    Store.Serves op (perform blake3 op env b).1 b.abs (perform blake3 op env b).2.abs := by
  apply Store.Serves.of_shrinks (shrinks_pruned env.prunedAt b)
  cases op with
  | get key => exact ⟨get_value _ key env.now, shrinks_get _ key env.now⟩
  | put key value ttl => exact ⟨rfl, shrinks_put _ key value ttl env.now⟩
  | generation n => exact ⟨rfl, Store.Shrinks.refl _⟩
  | bumpGeneration n => exact ⟨rfl, shrinks_bump blake3 _ n env.now⟩

/-- In every state, with any clock and any number of cleanup rounds between two calls, the local
backend answers as the ideal store does. -/
def healthy (blake3 : Bytes → String) : (backend blake3).Healthy := ⟨abs, serves blake3⟩

end LocalBackend
end RbatisCache
