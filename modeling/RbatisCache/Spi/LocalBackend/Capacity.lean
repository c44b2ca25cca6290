import RbatisCache.Spi.LocalBackend.Eviction

/-! How many entries a backend holds. Cached values and generation records share the limit, and a
write makes room whether or not it needs any. -/
namespace RbatisCache.LocalBackend

/-- `entry_count`, with the entries that may have expired. -/
def entryCount (b : LocalBackend) : Nat := b.entries.len

/-- The loop of `evict_if_needed` as the source has it, with no bound on its rounds: it can start with
the first entries and end with the second ones. -/
inductive EvictWhile (strategy : EvictionStrategy) (max : Nat) :
    DashMap String Entry → DashMap String Entry → Prop
  | room {m : DashMap String Entry} (fits : m.len < max) : EvictWhile strategy max m m
  | exhausted {m : DashMap String Entry} (full : ¬ m.len < max)
    (none : (victimKey strategy m).2 = none) : EvictWhile strategy max m (victimKey strategy m).1
  | evict {m n : DashMap String Entry} {v : String} (full : ¬ m.len < max)
    (victim : (victimKey strategy m).2 = some v)
    (rest : EvictWhile strategy max ((victimKey strategy m).1.erase v) n) :
    EvictWhile strategy max m n

/-- The entry that is the first to go in the order of a strategy. -/
def firstInOrder (strategy : EvictionStrategy) (entries : DashMap String Entry) : Option String :=
  match strategy with
  | .fifo => fifoVictim entries
  | .lfu => lfuVictim entries
  | .lru => lruVictim entries

/-- The entry that has to go for another one, if the limit is reached without the expired ones. -/
def displaced (now : UInt64) (b : LocalBackend) : Option String :=
  match b.config.maxEntries with
  | none => none
  | some max =>
    if (b.prune now).entries.len < max then none
    else firstInOrder b.config.eviction (b.prune now).entries

/-- What a `get` returns of these keys stays the same from now on. -/
def Spares (now : UInt64) (keys : String → Prop) (before after : LocalBackend) : Prop :=
  ∀ key, keys key → ∀ time, now ≤ time → (after.get key time).1 = (before.get key time).1

/-- What a backend holds under a storage key. -/
def visible (b : LocalBackend) (storageKey : String) (time : UInt64) : Option Bytes :=
  (b.entries.lookup storageKey).bind fun e => if time < e.expiresAtMs then some e.bytes else none

section
variable {blake3 : Bytes → String} {config : LocalBackendConfig} {strategy : EvictionStrategy}
variable {m n n' : DashMap String Entry} {b : LocalBackend} {max rounds : Nat} {h : List Tick}
variable {now time : UInt64} {key storageKey : String}

/-! ### The loop ends -/

theorem EvictWhile.stop (room : m.len < max ∨ m.len = 0) : EvictWhile strategy max m m := by
  by_cases fits : m.len < max
  · exact .room fits
  · have empty : m.len = 0 := room.resolve_left fits
    have none : (victimKey strategy m).2 = none := by
      cases hv : (victimKey strategy m).2 with
      | none => rfl
      | some v =>
        have fewer := len_erase_victim hv
        omega
    have ended := EvictWhile.exhausted fits none
    rwa [(victimKey_eq_none none).2] at ended

/-- A loop with as many rounds as there are entries runs to its end. -/
theorem evictWhile_evictLoop (enough : m.len ≤ rounds) :
    EvictWhile strategy max m (evictLoop strategy max rounds m) := by
  induction rounds generalizing m with
  | zero => exact .stop (.inr (Nat.le_zero.mp enough))
  | succ rounds ih =>
    cases loopStep strategy max rounds m with
    | stop room loop _ =>
      rw [loop]
      exact .stop room
    | evict victim loop _ full =>
      rw [loop]
      have fewer := len_erase_victim victim
      exact .evict full victim (ih (by omega))

/-- `evict_if_needed` leaves what its loop ends with. -/
theorem evictWhile_evictIfNeeded (limit : b.config.maxEntries = some max) (full : max ≤ b.entryCount)
    (now : UInt64) :
    EvictWhile b.config.eviction max (b.prune now).entries (b.evictIfNeeded now).entries := by
  unfold evictIfNeeded
  rw [limit]
  dsimp only
  have noRoom : ¬ b.entries.len < max := Nat.not_lt.mpr full
  rw [if_neg noRoom]
  exact evictWhile_evictLoop (Nat.le_refl _)

/-- There is no other end. -/
theorem EvictWhile.unique (ends : EvictWhile strategy max m n) (ends' : EvictWhile strategy max m n') :
    n = n' := by
  induction ends with
  | room fits =>
    cases ends' with
    | room => rfl
    | exhausted full | evict full => exact absurd fits full
  | exhausted full none =>
    cases ends' with
    | room fits => exact absurd fits full
    | exhausted => rfl
    | evict _ victim => rw [none] at victim; cases victim
  | evict full victim _ ih =>
    cases ends' with
    | room fits => exact absurd fits full
    | exhausted _ none => rw [none] at victim; cases victim
    | evict _ victim' rest' =>
      rw [victim] at victim'
      cases victim'
      exact ih rest'

/-! ### The limit -/

private theorem entryCount_insertEntry_le (key : String) (bytes : Bytes) (expiresAtMs : UInt64) :
    (b.insertEntry key bytes expiresAtMs).entryCount ≤ b.entryCount + 1 :=
  DashMap.len_insert_le _ _ _

private theorem entryCount_get_le (key : String) (now : UInt64) :
    (b.get key now).2.entryCount ≤ b.entryCount := by
  cases got b key now with
  | hit _ _ result =>
    rw [result]
    exact (DashMap.len_replace _ _ _).le
  | expired _ _ result =>
    rw [result]
    exact DashMap.len_erase_le _ _
  | absent _ result => rw [result]

/-- A write into a backend with a limit. -/
theorem entryCount_write_le (limit : b.config.maxEntries = some max) (now : UInt64) (key : String)
    (bytes : Bytes) (expiresAtMs : UInt64) :
    ((b.evictIfNeeded now).insertEntry key bytes expiresAtMs).entryCount ≤ Nat.max max 1 :=
  (entryCount_insertEntry_le _ _ _).trans (len_evictIfNeeded_lt limit now)

theorem Tick.entryCount_le (limit : b.config.maxEntries = some max)
    (bounded : b.entryCount ≤ Nat.max max 1) (t : Tick) :
    (t.apply blake3 b).entryCount ≤ Nat.max max 1 := by
  obtain ⟨now, activity⟩ := t
  cases activity with
  | cleanup => exact (DashMap.len_retain_le _ _).trans bounded
  | call op =>
    cases op with
    | get key => exact (entryCount_get_le key now).trans bounded
    | generation n => exact bounded
    | put key value ttl => exact entryCount_write_le limit now _ _ _
    | bumpGeneration n => exact entryCount_write_le (b := (b.bump n).2) limit now _ _ _

private theorem entryCount_after (limit : config.maxEntries = some max) :
    (after blake3 config h).entryCount ≤ Nat.max max 1 := by
  induction h with
  | nil => exact Nat.zero_le _
  | cons t earlier ih => exact Tick.entryCount_le (after_config.symm ▸ limit) ih t

private theorem entryCount_write_succ (now : UInt64) (key : String) (bytes : Bytes)
    (expiresAtMs : UInt64) :
    ((b.evictIfNeeded now).insertEntry key bytes expiresAtMs).entryCount ≤ b.entryCount + 1 :=
  (entryCount_insertEntry_le _ _ _).trans (Nat.succ_le_succ (len_evictIfNeeded_le now b))

theorem Tick.entryCount_succ (t : Tick) (b : LocalBackend) :
    (t.apply blake3 b).entryCount ≤ b.entryCount + 1 := by
  obtain ⟨now, activity⟩ := t
  cases activity with
  | cleanup => exact (DashMap.len_retain_le _ _).trans (Nat.le_succ _)
  | call op =>
    cases op with
    | get key => exact (entryCount_get_le key now).trans (Nat.le_succ _)
    | generation n => exact Nat.le_succ _
    | put key value ttl => exact entryCount_write_succ now _ _ _
    | bumpGeneration n => exact entryCount_write_succ (b := (b.bump n).2) now _ _ _

theorem entryCount_after_le (h : List Tick) : (after blake3 config h).entryCount ≤ h.length := by
  induction h with
  | nil => exact Nat.zero_le _
  | cons t earlier ih => exact (t.entryCount_succ _).trans (Nat.succ_le_succ ih)

/-- After every history, with clocks that may go back, a backend with a limit holds no more entries
than the limit, or one if the limit is 0. In every full backend the loop of `evict_if_needed` ends
with the entries of `evictIfNeeded`, and from no entries can it end in two ways. -/
theorem entries_are_bounded (limit : config.maxEntries = some max) (h : List Tick) :
    (after blake3 config h).entryCount ≤ Nat.max max 1 ∧
    (∀ (b : LocalBackend) (now : UInt64), b.config = config → max ≤ b.entryCount →
      EvictWhile config.eviction max (b.prune now).entries (b.evictIfNeeded now).entries) ∧
    ∀ m n n', EvictWhile config.eviction max m n → EvictWhile config.eviction max m n' → n = n' := by
  refine ⟨entryCount_after limit, ?_, fun _ _ _ => EvictWhile.unique⟩
  rintro b now rfl full
  exact evictWhile_evictIfNeeded limit full now

/-! ### What goes for an entry -/

private theorem victimKey_eq_firstInOrder (strategy : EvictionStrategy) (m : DashMap String Entry) :
    (victimKey strategy m).2 = firstInOrder strategy m := by
  cases strategy with
  | fifo | lru => rfl
  | lfu => exact lfuVictim_lfuLevel m

theorem evictLoop_of_room (room : m.len < max) : evictLoop strategy max rounds m = m := by
  cases rounds with
  | zero => rfl
  | succ rounds => rw [evictLoop, if_pos room]

private theorem visible_prune (le : now ≤ time) (b : LocalBackend) (storageKey : String) :
    (b.prune now).visible storageKey time = b.visible storageKey time := by
  unfold visible
  cases he : b.entries.lookup storageKey with
  | none =>
    have gone : (b.prune now).entries.lookup storageKey = none :=
      DashMap.lookup_retain_of_absent _ he
    rw [gone]
  | some e =>
    by_cases alive : now < e.expiresAtMs
    · have kept : (b.prune now).entries.lookup storageKey = some e :=
        DashMap.lookup_retain he (decide_eq_true alive)
      rw [kept]
    · have gone : (b.prune now).entries.lookup storageKey = none :=
        DashMap.lookup_retain_of_neg he (decide_eq_false alive)
      have past : ¬ time < e.expiresAtMs := fun early => alive (UInt64.lt_of_le_of_lt le early)
      rw [gone, Option.bind_some, if_neg past]
      rfl

/-- A victim selection changes access counts only. -/
theorem lookup_victimKey (strategy : EvictionStrategy) (m : DashMap String Entry) :
    ∃ f : Entry → Entry, (∀ e, (f e).bytes = e.bytes ∧ (f e).expiresAtMs = e.expiresAtMs) ∧
      ∀ k, (victimKey strategy m).1.lookup k = (m.lookup k).map f := by
  cases strategy with
  | fifo | lru => exact ⟨id, fun e => ⟨rfl, rfl⟩, fun k => Option.map_id'.symm⟩
  | lfu => exact ⟨lower _, fun e => ⟨rfl, rfl⟩, fun k => lookup_lfuLevel m k⟩

/-- In a full map the loop evicts the first entry and no other. -/
theorem evictLoop_full (strategy : EvictionStrategy) (positive : 1 ≤ max) (full : m.len = max) : ∃ v,
    firstInOrder strategy m = some v ∧
    evictLoop strategy max m.len m = (victimKey strategy m).1.erase v := by
  obtain ⟨rounds, hr⟩ : ∃ rounds, m.len = rounds + 1 := ⟨m.len - 1, by omega⟩
  rw [hr]
  cases loopStep strategy max rounds m with
  | stop room => omega
  | @evict v victim loop =>
    have fewer := len_erase_victim victim
    refine ⟨v, (victimKey_eq_firstInOrder strategy m).symm.trans victim, loop.trans ?_⟩
    exact evictLoop_of_room (by omega)

/-- An eviction takes away the displaced entry and leaves all others. -/
theorem visible_evictIfNeeded (limit : b.config.maxEntries = some max) (positive : 1 ≤ max)
    (bounded : b.entryCount ≤ max) (le : now ≤ time) (storageKey : String) :
    (b.evictIfNeeded now).visible storageKey time =
      if b.displaced now = some storageKey then none else b.visible storageKey time := by
  have fewer : (b.prune now).entries.len ≤ b.entries.len := DashMap.len_retain_le _ _
  by_cases fits : (b.prune now).entries.len < max
  · have stays : b.displaced now = none := by
      unfold displaced
      rw [limit]
      exact if_pos fits
    rw [stays, if_neg (Option.some_ne_none storageKey).symm]
    unfold evictIfNeeded
    rw [limit]
    dsimp only
    split
    · rfl
    · rw [evictLoop_of_room fits]
      exact visible_prune le b storageKey
  · have full : (b.prune now).entries.len = max := by
      unfold entryCount at bounded
      omega
    have noRoom : ¬ b.entries.len < max := by omega
    obtain ⟨v, first, loop⟩ := evictLoop_full b.config.eviction positive full
    have goes : b.displaced now = some v := by
      unfold displaced
      rw [limit]
      exact (if_neg fits).trans first
    have left : (b.evictIfNeeded now).entries =
        (victimKey b.config.eviction (b.prune now).entries).1.erase v := by
      unfold evictIfNeeded
      rw [limit]
      dsimp only
      rw [if_neg noRoom]
      exact loop
    rw [goes, ← visible_prune le b storageKey]
    unfold visible
    rw [left]
    by_cases same : v = storageKey
    · subst same
      rw [if_pos rfl, AList.lookup_erase, Option.bind_none]
    · obtain ⟨f, kept, changed⟩ := lookup_victimKey b.config.eviction (b.prune now).entries
      rw [if_neg fun h => same (Option.some_inj.mp h), AList.lookup_erase_ne (Ne.symm same), changed]
      cases (b.prune now).entries.lookup storageKey with
      | none => rfl
      | some e =>
        rw [Option.map_some, Option.bind_some, Option.bind_some, (kept e).1, (kept e).2]

/-- The first entry is one that has not expired. -/
theorem visible_displaced (goes : b.displaced now = some storageKey) :
    b.visible storageKey now ≠ none := by
  unfold displaced at goes
  split at goes
  · cases goes
  · split at goes
    · cases goes
    · rw [← victimKey_eq_firstInOrder] at goes
      obtain ⟨e, he⟩ := victim_present goes
      have alive := alive_prune now b storageKey e he
      unfold visible
      rw [DashMap.lookup_of_retain he, Option.bind_some, if_pos alive]
      exact Option.some_ne_none _

private theorem spares_iff {keys : String → Prop} {before after : LocalBackend} :
    Spares now keys before after ↔ ∀ key, keys key → ∀ time, now ≤ time →
      after.visible (entryKey key) time = before.visible (entryKey key) time := by
  have returned (b : LocalBackend) (key : String) (time : UInt64) :
      (b.get key time).1 = .ok (b.visible (entryKey key) time) := get_answer b key time
  unfold Spares
  simp only [returned, Except.ok.injEq]

/-- A write spares exactly the keys that are not displaced. -/
theorem spares_write_iff (limit : b.config.maxEntries = some max) (positive : 1 ≤ max)
    (bounded : b.entryCount ≤ max) (now : UInt64) (storageKey : String) (bytes : Bytes)
    (expiresAtMs : UInt64) (keys : String → Prop)
    (other : ∀ key, keys key → entryKey key ≠ storageKey) :
    Spares now keys b ((b.evictIfNeeded now).insertEntry storageKey bytes expiresAtMs) ↔
      ∀ key, keys key → b.displaced now ≠ some (entryKey key) := by
  have written (key : String) (hk : keys key) (time : UInt64) (le : now ≤ time) :
      ((b.evictIfNeeded now).insertEntry storageKey bytes expiresAtMs).visible (entryKey key) time =
        if b.displaced now = some (entryKey key) then none else b.visible (entryKey key) time := by
    rw [← visible_evictIfNeeded limit positive bounded le]
    unfold visible insertEntry
    rw [AList.lookup_insert_ne (other key hk)]
  rw [spares_iff]
  constructor
  · intro spares key hk goes
    have same := spares key hk now (UInt64.le_refl now)
    rw [written key hk now (UInt64.le_refl now), if_pos goes] at same
    exact visible_displaced goes same.symm
  · intro stays key hk time le
    rw [written key hk time le, if_neg (stays key hk)]

/-- In every state that a backend with a limit of at least one entry reaches: a `put` on a key that
holds a living value leaves what a `get` returns of all other keys if and only if the limit is not
reached without the expired entries or the first entry in the order of the strategy is the one of the
key itself or a generation record, and `bump_generation` leaves it of all keys if and only if the
limit is not reached or the first entry is a generation record. -/
theorem writes_spare_others (limit : config.maxEntries = some max) (positive : 1 ≤ max) (h : List Tick)
    (now : UInt64) :
    (∀ key value ttl e, (after blake3 config h).entries.lookup (entryKey key) = some e →
      now < e.expiresAtMs →
      (Spares now (· ≠ key) (after blake3 config h) ((after blake3 config h).put key value ttl now).2 ↔
        ∀ k, k ≠ key → (after blake3 config h).displaced now ≠ some (entryKey k))) ∧
    ∀ nameSpace, Spares now (fun _ => True) (after blake3 config h)
        ((after blake3 config h).bumpGeneration blake3 nameSpace now).2 ↔
      ∀ k, (after blake3 config h).displaced now ≠ some (entryKey k) := by
  have limited : (after blake3 config h).config.maxEntries = some max := after_config.symm ▸ limit
  have bounded : (after blake3 config h).entryCount ≤ max := by
    have bound : (after blake3 config h).entryCount ≤ Nat.max max 1 := entryCount_after limit
    exact bound.trans (Nat.max_le.mpr ⟨Nat.le_refl _, positive⟩)
  constructor
  · intro key value ttl _ _ _
    exact spares_write_iff limited positive bounded now _ _ _ _ fun k ne same => ne (entryKey_inj same)
  · intro nameSpace
    have spares := spares_write_iff (b := ((after blake3 config h).bump nameSpace).2) limited
      positive bounded now (generationKey blake3 nameSpace)
      (toLeBytes ((after blake3 config h).bump nameSpace).1) u64Max (fun _ => True)
      fun k _ => entryKey_ne_generationKey blake3 k nameSpace
    rw [spares_iff] at spares ⊢
    exact spares.trans ⟨fun stays k => stays k trivial, fun stays k _ => stays k⟩

end
/-- A backend with the limit 0 holds one entry. -/
theorem limit_zero_holds_one :
    (after Sample.hash { maxEntries := some 0 } Sample.puts).entryCount ≤ Nat.max 0 1 :=
  (entries_are_bounded rfl Sample.puts).1

/-- Two values in a backend for two. -/
def Sample.full : LocalBackend := after Sample.hash { maxEntries := some 2 } Sample.puts

/-- The oldest value can be overwritten in place. -/
theorem oldest_overwritten : Spares 7 (· ≠ "a") Sample.full (Sample.full.put "a" [3] (.fromSecs 1) 7).2 := by
  have positive : 1 ≤ 2 := by decide
  have first : Sample.full.displaced 7 = some (entryKey "a") := by decide
  refine ((writes_spare_others rfl positive Sample.puts 7).1 "a" [3] (.fromSecs 1)
    ⟨[1], 1005, 0, 0, 0⟩ (by decide) (by decide)).mpr fun k ne goes => ne ?_
  exact (entryKey_inj (Option.some_inj.mp (first.symm.trans goes))).symm

/-- To overwrite the other value evicts it, and so does a bump. -/
theorem overwrite_and_bump_evict :
    Sample.full.config.maxEntries = some 2 ∧ (Sample.full.get "b" 7).1 = .ok (some [2]) ∧
    (Sample.full.get "a" 7).1 = .ok (some [1]) ∧
    ((Sample.full.put "b" [3] (.fromSecs 1) 7).2.get "a" 7).1 = .ok none ∧
    ((Sample.full.bumpGeneration Sample.hash "users" 7).2.get "a" 7).1 = .ok none := by
  decide

end RbatisCache.LocalBackend
