import RbatisCache.Spi.LocalBackend.Concurrent
import RbatisCache.Spi.LocalBackend.Capacity

/-! Calls that do not interrupt one another, on maps of one shard, do what the sequential model says,
over whole histories. -/
namespace RbatisCache.LocalBackend.Concurrent
open Interleaving

def unsharded : Layout := ⟨1, fun _ => 0, fun _ => Nat.one_pos⟩

/-- The program runs without interruption, with the clock standing still. -/
def alone {α : Type} (now : UInt64) (p : Code α) (w : World) : α × World :=
  Prog.run (act unsharded now) p w

/-- The shared state stands for the sequential one. -/
structure Simulates (w : World) (b : LocalBackend) : Prop where
  entries : w.shard 0 = b.entries
  seq : w.seq = b.seq
  generations : ∀ n, w.readGeneration n = b.readGeneration n
  owned : w.Owned

section
variable {w : World} {b : LocalBackend} {now : UInt64} {max rounds : Nat} {n : String}
variable {config : LocalBackendConfig}

private theorem alone_bind {α β : Type} (p : Code α) (f : α → Code β) (w : World) :
    alone now (p.bind f) w = alone now (f (alone now p w).1) (alone now p w).2 :=
  Prog.run_bind _ p f w

/-! ### Operations on all entries -/

private theorem setShard_self (w : World) : w.setShard 0 (w.shard 0) = w := by
  rw [World.setShard, Function.update_eq_self]

private theorem setShard_setShard (w : World) (m m' : DashMap String Entry) :
    (w.setShard 0 m).setShard 0 m' = w.setShard 0 m' := by
  simp [World.setShard]

@[simp] theorem shard_setShard (w : World) (m : DashMap String Entry) : (w.setShard 0 m).shard 0 = m := by
  simp [World.setShard]

private theorem alone_entriesLen (w : World) :
    alone now (entriesLen unsharded) w = ((w.shard 0).len, w) := rfl

private theorem alone_entriesRetain (limit : UInt64) (w : World) :
    alone now (entriesRetain unsharded limit) w =
      ((), w.setShard 0 ((w.shard 0).retain fun _ e => decide (limit < e.expiresAtMs))) := rfl

private theorem alone_entriesIter (w : World) :
    alone now (entriesIter unsharded) w = ((w.shard 0).entries, w) :=
  congrArg (·, w) (List.append_nil _)

private theorem alone_entriesLower (least : Nat) (w : World) :
    alone now (entriesLower unsharded least) w = ((), w.setShard 0 ((w.shard 0).mapValues fun e =>
      { e with accesses := .ofNat (e.accesses.toNat - least) })) := rfl

private theorem alone_pickLfu (w : World) :
    alone now (pickLfu unsharded) w = (lfuVictim (w.shard 0), w) :=
  (alone_bind _ _ w).trans (by rw [alone_entriesIter]; rfl)

private theorem alone_pickVictim (strategy : EvictionStrategy) (w : World) :
    alone now (pickVictim unsharded strategy) w =
      ((victimKey strategy (w.shard 0)).2, w.setShard 0 (victimKey strategy (w.shard 0)).1) := by
  cases strategy with
  | fifo =>
    refine (alone_bind _ _ w).trans ?_
    rw [alone_entriesIter, victimKey, setShard_self]
    rfl
  | lru =>
    refine (alone_bind _ _ w).trans ?_
    rw [alone_entriesIter, victimKey, setShard_self]
    rfl
  | lfu =>
    refine (alone_bind _ _ w).trans ?_
    rw [alone_entriesIter, victimKey]
    dsimp only
    cases least : ((w.shard 0).entries.map fun e => e.2.accesses.toNat).min? with
    | none =>
      rw [lfuLevel_of_none least, setShard_self]
      exact alone_pickLfu w
    | some least' =>
      refine (alone_bind _ _ w).trans ?_
      rw [alone_entriesLower, alone_pickLfu, shard_setShard, lfuLevel_of_some least]
      rfl

private theorem victimKey_of_empty {m : DashMap String Entry} (strategy : EvictionStrategy)
    (empty : m.len = 0) :
    victimKey strategy m = (m, none) := by
  have nothing : (victimKey strategy m).2 = none := by
    by_contra some_
    obtain ⟨v, victim⟩ := Option.ne_none_iff_exists'.mp some_
    have := len_erase_victim victim
    omega
  exact Prod.ext (victimKey_eq_none nothing).2 nothing

/-- The loop ends by itself when it may take a round more than there are entries. -/
theorem alone_evictLoop (w : World) {fuel : Nat} (few : (w.shard 0).len = fuel)
    (enough : fuel < rounds) : alone now (evictLoop unsharded config max rounds) w =
      ((), w.setShard 0 (LocalBackend.evictLoop config.eviction max fuel (w.shard 0))) := by
  induction rounds generalizing fuel w with
  | zero => omega
  | succ rounds ih =>
    refine (alone_bind _ _ w).trans ?_
    rw [alone_entriesLen]
    dsimp only
    by_cases room : (w.shard 0).len < max
    · rw [if_pos room]
      cases fuel with
      | zero =>
        rw [LocalBackend.evictLoop, setShard_self]
        rfl
      | succ fuel =>
        rw [LocalBackend.evictLoop, if_pos room, setShard_self]
        rfl
    · rw [if_neg room]
      refine (alone_bind _ _ w).trans ?_
      rw [alone_pickVictim]
      cases fuel with
      | zero =>
        rw [victimKey_of_empty _ few, LocalBackend.evictLoop]
        rfl
      | succ fuel =>
        rw [LocalBackend.evictLoop, if_neg room]
        rcases found : victimKey config.eviction (w.shard 0) with ⟨m, _ | k⟩
        · rfl
        · dsimp only
          have fewer : DashMap.len ((w.setShard 0 (m.erase k)).shard 0) = fuel := by
            have removed := len_erase_victim (congrArg Prod.snd found)
            rw [found] at removed
            dsimp only at removed
            rw [shard_setShard]
            omega
          have rest := ih (w.setShard 0 (m.erase k)) fewer (by omega)
          rw [shard_setShard, setShard_setShard] at rest
          have removed : (act unsharded now (.entriesRemove k) (w.setShard 0 m)).2 =
              w.setShard 0 (m.erase k) := by
            simp only [act, unsharded, shard_setShard, setShard_setShard]
          rw [← removed] at rest
          exact rest

/-! ### The calls -/

private theorem evictIfNeeded_eq (b : LocalBackend) (limit : UInt64) :
    b.evictIfNeeded limit = { b with entries := (b.evictIfNeeded limit).entries } := by
  unfold LocalBackend.evictIfNeeded
  split
  · rfl
  · split
    · rfl
    · rfl

theorem Simulates.setShard (simulates : Simulates w b) (m : DashMap String Entry) :
    Simulates (w.setShard 0 m) { b with entries := m } where
  entries := shard_setShard w m
  seq := simulates.seq
  generations := simulates.generations
  owned := ⟨simulates.owned.known, simulates.owned.owner⟩

private theorem alone_evictIfNeeded (simulates : Simulates w b) (enough : b.entries.len < rounds)
    (limit : UInt64) : alone now (evictIfNeeded unsharded b.config rounds limit) w =
      ((), w.setShard 0 (b.evictIfNeeded limit).entries) := by
  unfold evictIfNeeded LocalBackend.evictIfNeeded
  cases bound : b.config.maxEntries with
  | none =>
    dsimp only
    rw [← simulates.entries, setShard_self]
    rfl
  | some max =>
    refine (alone_bind _ _ w).trans ?_
    rw [alone_entriesLen, simulates.entries]
    dsimp only
    by_cases room : b.entries.len < max
    · rw [if_pos room, if_pos room, ← simulates.entries, setShard_self]
      rfl
    · rw [if_neg room, if_neg room]
      refine (alone_bind _ _ w).trans ?_
      rw [alone_entriesRetain, simulates.entries]
      dsimp only
      have pruned : (w.setShard 0 (b.prune limit).entries).shard 0 = (b.prune limit).entries :=
        shard_setShard w _
      have fewer : (b.prune limit).entries.len < rounds :=
        (DashMap.len_retain_le _ _).trans_lt enough
      have loop : alone now (evictLoop unsharded b.config max rounds) _ = _ :=
        alone_evictLoop (w.setShard 0 (b.prune limit).entries) (congrArg DashMap.len pruned) fewer
      rw [pruned, setShard_setShard] at loop
      exact loop

/-- What an insert leaves behind, whatever the entries were before. -/
theorem Simulates.insert (simulates : Simulates w b) (key : String) (bytes : Bytes)
    (expiresAtMs : UInt64) : Simulates
      (({ w with seq := w.seq + 1 } : World).setShard 0
        ((w.shard 0).insert key ⟨bytes, expiresAtMs, w.seq, w.seq, 0⟩))
      (b.insertEntry key bytes expiresAtMs) where
  entries := by rw [shard_setShard, simulates.entries, simulates.seq, LocalBackend.insertEntry]
  seq := congrArg (· + 1) simulates.seq
  generations := simulates.generations
  owned := ⟨simulates.owned.known, simulates.owned.owner⟩

private theorem alone_insertEntry (simulates : Simulates w b) (enough : b.entries.len < rounds)
    (key : String) (bytes : Bytes) (limit expiresAtMs : UInt64) :
    Simulates (alone now (insertEntry unsharded b.config rounds key bytes limit expiresAtMs) w).2
      ((b.evictIfNeeded limit).insertEntry key bytes expiresAtMs) := by
  rw [show alone now (insertEntry unsharded b.config rounds key bytes limit expiresAtMs) w = _ from
    alone_bind _ _ w, alone_evictIfNeeded simulates enough]
  have evicted := simulates.setShard (b.evictIfNeeded limit).entries
  rw [← evictIfNeeded_eq] at evicted
  exact evicted.insert key bytes expiresAtMs

private theorem alone_readGeneration (w : World) (n : String) :
    alone now (readGeneration n) w = (w.readGeneration n, w) := by
  unfold alone readGeneration
  simp only [Prog.bind_eq, Prog.perform_bind, Prog.run, act]
  cases lookup : w.generations.lookup n with
  | none =>
    rw [World.readGeneration_of_absent lookup]
    rfl
  | some counter =>
    rw [World.readGeneration_of_lookup lookup]
    rfl

private theorem alone_bump (owned : w.Owned) (n : String) : alone now (bump n) w =
    (saturatingAdd (w.readGeneration n) 1,
      (w.generationsEntry n).2.increment (w.generationsEntry n).1) := by
  rw [← owned.readGeneration_entry n n, World.readGeneration_of_lookup (World.lookup_entry w n)]
  rfl

theorem Simulates.bump (simulates : Simulates w b) (n : String) :
    Simulates ((w.generationsEntry n).2.increment (w.generationsEntry n).1) (b.bump n).2 := by
  have entered := simulates.owned.entry n
  have apart : (w.generationsEntry n).2.shard = w.shard ∧ (w.generationsEntry n).2.seq = w.seq := by
    cases w.entered n with
    | found _ result | created _ result =>
      rw [result]
      exact ⟨rfl, rfl⟩
  constructor
  case entries => exact (congrFun apart.1 0).trans simulates.entries
  case seq => exact apart.2.trans simulates.seq
  case generations =>
    intro m
    by_cases same : m = n
    · subst same
      rw [World.readGeneration_increment_self (World.lookup_entry w m),
        simulates.owned.readGeneration_entry, simulates.generations, LocalBackend.bump]
      simp [LocalBackend.readGeneration]
    · rw [entered.readGeneration_increment_ne (World.lookup_entry w n) same,
        simulates.owned.readGeneration_entry, simulates.generations, LocalBackend.bump]
      simp [LocalBackend.readGeneration, AList.lookup_insert_ne same]
  case owned => exact ⟨entered.known, entered.owner⟩

private theorem touch_absent {key : String} (absent : (w.shard 0).lookup key = none) :
    w.entriesTouch unsharded key = w := by
  simp only [World.entriesTouch, unsharded, absent]

theorem Simulates.touch (simulates : Simulates w b) {key : String} {e : Entry}
    (found : b.entries.lookup key = some e) : Simulates (w.entriesTouch unsharded key)
      { b with entries := b.entries.replace key (touch b.seq e), seq := b.seq + 1 } := by
  have result : w.entriesTouch unsharded key =
      { w.setShard 0 (b.entries.replace key (LocalBackend.touch b.seq e)) with seq := b.seq + 1 } := by
    simp only [World.entriesTouch, unsharded, simulates.entries, simulates.seq, found,
      LocalBackend.touch]
  rw [result]
  exact ⟨shard_setShard w _, rfl, simulates.generations,
    ⟨simulates.owned.known, simulates.owned.owner⟩⟩

/-- What a call answers alone, and the state that it leaves behind. -/
def Agrees {α : Type} (now : UInt64) (p : Code α) (w : World) (out : α × LocalBackend) : Prop :=
  (alone now p w).1 = out.1 ∧ Simulates (alone now p w).2 out.2

private theorem agrees_of_eq {α : Type} {p : Code α} {a : α} {u : World} {out : α × LocalBackend}
    (run : alone now p w = (a, u)) (answer : a = out.1) (simulates : Simulates u out.2) :
    Agrees now p w out := by
  rw [Agrees, run]
  exact ⟨answer, simulates⟩

private theorem agrees_get (simulates : Simulates w b) (key : String) :
    Agrees now (get key) w (b.get key now) := by
  have shard := simulates.entries
  cases got b key now with
  | @hit e found alive result =>
    have run : alone now (get key) w =
        (.ok (some e.bytes), w.entriesTouch unsharded (entryKey key)) := by
      simp only [alone, get, Prog.bind_eq, Prog.perform_bind, Prog.run, act, unsharded, shard, found,
        alive, UInt64.not_le.mpr alive, if_true, if_false, Option.bind_some]
      rfl
    rw [result]
    exact agrees_of_eq run rfl (simulates.touch found)
  | @expired e found past result =>
    have erased : ((w.setShard 0 (b.entries.erase (entryKey key))).shard 0).lookup (entryKey key) =
        none := by
      rw [shard_setShard, AList.lookup_erase]
    have run : alone now (get key) w =
        (.ok none, w.setShard 0 (b.entries.erase (entryKey key))) := by
      rw [← touch_absent erased]
      simp only [alone, get, Prog.bind_eq, Prog.perform_bind, Prog.run, act, unsharded, shard, found,
        past, UInt64.not_lt.mpr past, if_true, if_false, Option.bind_some]
      rfl
    rw [result]
    exact agrees_of_eq run rfl (simulates.setShard _)
  | absent missing result =>
    have untouched : w.entriesTouch unsharded (entryKey key) = w :=
      touch_absent (by rw [shard, missing])
    have run : alone now (get key) w = (.ok none, w) := by
      simp only [alone, get, Prog.bind_eq, Prog.perform_bind, Prog.run, act, shard, missing,
        Option.bind_none, unsharded]
      exact congrArg (_, ·) untouched
    rw [result]
    exact agrees_of_eq run rfl simulates

private theorem agrees_put (simulates : Simulates w b) (enough : b.entries.len < rounds) (key : String)
    (value : Bytes) (ttl : Duration) :
    Agrees now (put unsharded b.config rounds key value ttl) w (b.put key value ttl now) := by
  have run : alone now (put unsharded b.config rounds key value ttl) w =
      alone now ((insertEntry unsharded b.config rounds (entryKey key) value now (saturatingAdd now
        (.ofNat (if ttl.isZero then Duration.fromSecs 60 else ttl).asMillis))).bind
          fun _ => .ret (.ok ())) w := rfl
  exact agrees_of_eq (run.trans (alone_bind _ _ w)) rfl (alone_insertEntry simulates enough _ _ _ _)

private theorem agrees_generation (simulates : Simulates w b) (n : String) :
    Agrees now (generation n) w (.ok (b.readGeneration n), b) := by
  have run : alone now (generation n) w = (.ok (w.readGeneration n), w) :=
    (alone_bind _ _ w).trans (by rw [alone_readGeneration]; rfl)
  exact agrees_of_eq run (congrArg Except.ok (simulates.generations n)) simulates

private theorem agrees_bumpGeneration (blake3 : Bytes → String) (simulates : Simulates w b)
    (enough : b.entries.len < rounds) (n : String) :
    Agrees now (bumpGeneration blake3 unsharded b.config rounds n) w
      (b.bumpGeneration blake3 n now) := by
  have run : alone now (bumpGeneration blake3 unsharded b.config rounds n) w =
      alone now ((bump n).bind fun new => .call .nowMs fun now =>
        (insertEntry unsharded b.config rounds (generationKey blake3 n) (toLeBytes new) now
          u64Max).bind fun _ => .ret (.ok new)) w := rfl
  rw [alone_bind, alone_bump simulates.owned, simulates.generations] at run
  exact agrees_of_eq (run.trans (alone_bind _ _ _)) rfl
    (alone_insertEntry (simulates.bump n) enough (generationKey blake3 n) (toLeBytes (b.bump n).1)
      now u64Max)

/-- A call alone does what the sequential model says, if its eviction loop may take enough rounds. -/
theorem agrees_call (blake3 : Bytes → String) (simulates : Simulates w b)
    (enough : b.entries.len < rounds) (op : BackendOp) :
    Agrees now (call blake3 unsharded b.config rounds op) w (perform blake3 op ⟨[], now⟩ b) := by
  cases op with
  | get key => exact agrees_get simulates key
  | put key value ttl => exact agrees_put simulates enough key value ttl
  | generation n => exact agrees_generation simulates n
  | bumpGeneration n => exact agrees_bumpGeneration blake3 simulates enough n

private theorem agrees_prune (simulates : Simulates w b) :
    Agrees now (prune unsharded) w ((), b.prune now) := by
  have run : alone now (prune unsharded) w = ((), w.setShard 0 (b.prune now).entries) := by
    rw [LocalBackend.prune, ← simulates.entries]
    rfl
  exact agrees_of_eq run rfl (simulates.setShard _)

end

/-! ### Histories -/

section
variable (blake3 : Bytes → String) (config : LocalBackendConfig) (rounds : Nat)

/-- What happens at a tick, as programs that run alone. -/
def applyAlone (t : Tick) (w : World) : World :=
  match t.activity with
  | .call op => (alone t.now (call blake3 unsharded config rounds op) w).2
  | .cleanup => (alone t.now (prune unsharded) w).2

/-- The shared state after a history in which every call runs alone. -/
def afterAlone : List Tick → World
  | [] => .new
  | t :: earlier => applyAlone blake3 config rounds t (afterAlone earlier)

private theorem simulates_new : Simulates .new (withConfig config) where
  entries := rfl
  seq := rfl
  generations _ := rfl
  owned := World.owned_new

theorem Simulates.tick {w : World} {b : LocalBackend} (simulates : Simulates w b)
    (enough : b.entries.len < rounds) (t : Tick) :
    Simulates (applyAlone blake3 b.config rounds t w) (t.apply blake3 b) := by
  obtain ⟨now, activity⟩ := t
  cases activity with
  | call op => exact (agrees_call blake3 simulates enough op).2
  | cleanup => exact (agrees_prune simulates).2

/-- Entries are as few as ticks, so that loops with more rounds than ticks run to their end. -/
theorem simulates_after {h : List Tick} (enough : h.length < rounds) :
    Simulates (afterAlone blake3 config rounds h) (after blake3 config h) := by
  induction h with
  | nil => exact simulates_new config
  | cons t earlier ih =>
    have shorter : earlier.length < rounds := Nat.lt_of_succ_lt enough
    have few : (after blake3 config earlier).entries.len < rounds :=
      (entryCount_after_le earlier).trans_lt shorter
    have step := (ih shorter).tick blake3 rounds few t
    rwa [after_config] at step

/-- After every history, a call that runs alone answers as the sequential model does. -/
theorem answer_alone {h : List Tick} (enough : h.length < rounds) (op : BackendOp) (now : UInt64) :
    (alone now (call blake3 unsharded config rounds op) (afterAlone blake3 config rounds h)).1 =
      answer blake3 config h op now := by
  have few : (after blake3 config h).entries.len < rounds := (entryCount_after_le h).trans_lt enough
  have agrees : Agrees now _ _ _ :=
    agrees_call blake3 (simulates_after blake3 config rounds enough) few op
  rw [after_config] at agrees
  exact agrees.1

end
end RbatisCache.LocalBackend.Concurrent
