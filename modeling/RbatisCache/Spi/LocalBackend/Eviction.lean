import RbatisCache.Spi.LocalBackend.Log

/-! Which entry is evicted. The sequence numbers and access counts of the entries are those of the log,
so the policies go by the history of the keys. -/
namespace RbatisCache.LocalBackend

/-! ### The entries carry what the log says -/

/-- The bookkeeping of an entry is that of the log. -/
structure Recorded (log : Log) (key : String) (e : Entry) : Prop where
  write : lastWrite key log = some e.insertSeq.toNat
  use : lastUse key log = some e.lastAccessSeq.toNat
  count : hitsSince key log = e.accesses.toNat + subtractedSince key log

def Tracks (log : Log) (entries : DashMap String Entry) : Prop :=
  ∀ key e, entries.lookup key = some e → Recorded log key e

/-- All entries are still alive. -/
def Alive (now : UInt64) (entries : DashMap String Entry) : Prop :=
  ∀ key e, entries.lookup key = some e → now < e.expiresAtMs

section
variable {blake3 : Bytes → String} {config : LocalBackendConfig} {key j k : String} {log : Log}
variable {strategy : EvictionStrategy} {m n : DashMap String Entry} {e : Entry} {now : UInt64}
variable {b : LocalBackend} {max : Nat}

theorem Recorded.accesses_eq (h : Recorded log key e) : accesses key log = e.accesses.toNat := by
  rw [accesses, h.count, Nat.add_sub_cancel]

theorem Tracks.of_lookup (h : Tracks log m)
    (sub : ∀ {k e}, n.lookup k = some e → m.lookup k = some e) : Tracks log n :=
  fun key e he => h key e (sub he)

theorem Alive.carried (h : Alive now m)
    (carries : Carries (fun e e' => e.expiresAtMs = e'.expiresAtMs) m n) : Alive now n := by
  intro key e he
  obtain ⟨e', he', same⟩ := carries key e he
  exact same ▸ h key e' he'

theorem alive_prune (now : UInt64) (b : LocalBackend) : Alive now (b.prune now).entries := by
  intro key e he
  exact of_decide_eq_true (List.mem_filter.mp (AList.mem_lookup_iff.mp he)).2

/-- Every count is at least what is subtracted from all. -/
theorem least_le (he : m.lookup k = some e) :
    (m.entries.map fun e => e.2.accesses.toNat).min?.getD 0 ≤ e.accesses.toNat := by
  have mem : e.accesses.toNat ∈ m.entries.map fun e => e.2.accesses.toNat :=
    List.mem_map.mpr ⟨⟨k, e⟩, AList.mem_lookup_iff.mp he, rfl⟩
  cases hm : (m.entries.map fun e => e.2.accesses.toNat).min? with
  | none => exact Nat.zero_le _
  | some least => exact (List.min?_eq_some_iff.mp hm).2 _ mem

/-- The entry with a smaller count. -/
def lower (least : Nat) (e : Entry) : Entry :=
  { e with accesses := .ofNat (e.accesses.toNat - least) }

private theorem toNat_lower (least : Nat) (e : Entry) :
    (lower least e).accesses.toNat = e.accesses.toNat - least := by
  apply UInt64.toNat_ofNat_of_lt'
  exact Nat.lt_of_le_of_lt (Nat.sub_le _ _) e.accesses.toNat_lt

theorem lfuLevel_of_none (none : (m.entries.map fun e => e.2.accesses.toNat).min? = none) :
    lfuLevel m = m := by
  unfold lfuLevel
  rw [none]

theorem lfuLevel_of_some {least : Nat}
    (some : (m.entries.map fun e => e.2.accesses.toNat).min? = some least) :
    lfuLevel m = m.mapValues (lower least) := by
  unfold lfuLevel
  rw [some]
  rfl

theorem lookup_lfuLevel (m : DashMap String Entry) (k : String) : (lfuLevel m).lookup k =
    (m.lookup k).map (lower ((m.entries.map fun e => e.2.accesses.toNat).min?.getD 0)) := by
  cases hm : (m.entries.map fun e => e.2.accesses.toNat).min? with
  | none =>
    have empty : m.entries = [] := List.map_eq_nil_iff.mp (List.min?_eq_none_iff.mp hm)
    rw [lfuLevel_of_none hm, AList.lookup, empty]
    rfl
  | some least => rw [lfuLevel_of_some hm, DashMap.lookup_mapValues, Option.getD_some]

private theorem recorded_levelled {least : Nat} (h : Recorded log key e)
    (le : least ≤ e.accesses.toNat) :
    Recorded (.levelled least :: log) key (lower least e) where
  write := h.write
  use := h.use
  count := by
    rw [toNat_lower, hitsSince, subtractedSince, h.count]
    omega

/-- A victim selection keeps the entries in step with the log. -/
theorem Tracks.victimKey (h : Tracks log m) :
    Tracks (levels strategy m ++ log) (victimKey strategy m).1 := by
  cases strategy with
  | fifo | lru => exact h
  | lfu =>
    intro key e he
    change (lfuLevel m).lookup key = some e at he
    rw [lookup_lfuLevel, Option.map_eq_some_iff] at he
    obtain ⟨e', he', rfl⟩ := he
    exact recorded_levelled (h key e' he') (least_le he')

private theorem alive_victimKey (h : Alive now m) : Alive now (victimKey strategy m).1 :=
  h.carried (carries_victimKey (R := fun e e' => e.expiresAtMs = e'.expiresAtMs) (fun _ _ => rfl) _ _)

/-- Subtracting the same from all keeps their order. -/
theorem lower_le_iff {e' : Entry} (he : m.lookup k = some e) (he' : m.lookup j = some e') :
    (lower ((m.entries.map fun e => e.2.accesses.toNat).min?.getD 0) e).accesses ≤
      (lower ((m.entries.map fun e => e.2.accesses.toNat).min?.getD 0) e').accesses ↔
    e.accesses ≤ e'.accesses := by
  have le := least_le he
  have le' := least_le he'
  rw [UInt64.le_iff_toNat_le, UInt64.le_iff_toNat_le, toNat_lower, toNat_lower]
  omega

/-! ### Victims -/

private theorem earlier_of_le {a b : Option Nat} {x y : Nat} (ha : a = some x) (hb : b = some y)
    (le : x ≤ y) (ne : b ≠ some x) : Earlier a b := by
  refine ⟨x, ha, y, hb, lt_of_le_of_ne le fun same => ne ?_⟩
  rw [hb, same]

private theorem fifoVictim_spec {v : String} (h : fifoVictim m = some v) : ∃ e, m.lookup v = some e ∧
    ∀ k f, m.lookup k = some f → e.insertSeq.toNat ≤ f.insertSeq.toNat := by
  unfold fifoVictim at h
  exact DashMap.minByKey_spec h

private theorem lruVictim_spec {v : String} (h : lruVictim m = some v) : ∃ e, m.lookup v = some e ∧
    ∀ k f, m.lookup k = some f → e.lastAccessSeq.toNat ≤ f.lastAccessSeq.toNat := by
  unfold lruVictim at h
  exact DashMap.minByKey_spec h

private theorem lfuVictim_spec {v : String} (h : lfuVictim m = some v) : ∃ e, m.lookup v = some e ∧
    ∀ k f, m.lookup k = some f → e.accesses.toNat < f.accesses.toNat ∨
      e.accesses.toNat = f.accesses.toNat ∧ e.insertSeq.toNat ≤ f.insertSeq.toNat := by
  unfold lfuVictim at h
  obtain ⟨e, he, least⟩ := DashMap.minByKey_spec h
  exact ⟨e, he, fun k f hf => Prod.Lex.toLex_le_toLex.mp (least k f hf)⟩

private theorem fifoVictim_eq_none : fifoVictim m = none ↔ m.len = 0 := DashMap.minByKey_eq_none

private theorem lruVictim_eq_none : lruVictim m = none ↔ m.len = 0 := DashMap.minByKey_eq_none

private theorem lfuVictim_eq_none : lfuVictim m = none ↔ m.len = 0 := DashMap.minByKey_eq_none

/-- The subtraction does not change the victim. -/
theorem lfuVictim_lfuLevel (m : DashMap String Entry) : lfuVictim (lfuLevel m) = lfuVictim m := by
  cases hm : (m.entries.map fun e => e.2.accesses.toNat).min? with
  | none => rw [lfuLevel_of_none hm]
  | some least =>
    rw [lfuLevel_of_some hm]
    unfold lfuVictim
    refine DashMap.minByKey_mapValues fun j v k w hv hw => ?_
    have le := least_le hv
    have le' := least_le hw
    rw [hm, Option.getD_some] at le le'
    rw [Prod.Lex.toLex_lt_toLex, Prod.Lex.toLex_lt_toLex, toNat_lower, toNat_lower]
    dsimp only [lower]
    omega

/-- The victim is one of the entries. -/
theorem victim_present {v : String} (victim : (victimKey strategy m).2 = some v) :
    ∃ e, m.lookup v = some e := by
  cases strategy with
  | fifo =>
    obtain ⟨e, he, -⟩ := fifoVictim_spec victim
    exact ⟨e, he⟩
  | lru =>
    obtain ⟨e, he, -⟩ := lruVictim_spec victim
    exact ⟨e, he⟩
  | lfu =>
    obtain ⟨e, he, -⟩ := lfuVictim_spec ((lfuVictim_lfuLevel m).symm.trans victim)
    exact ⟨e, he⟩

/-- The victim comes before all other entries in the order of its strategy. -/
theorem victim_precedes (tracks : Tracks log m) {v : String}
    (victim : (victimKey strategy m).2 = some v) {f : Entry} (hf : m.lookup k = some f)
    (ne : k ≠ v) : Precedes log v k strategy := by
  cases strategy with
  | fifo =>
    obtain ⟨e, he, least⟩ := fifoVictim_spec victim
    have written := (tracks v e he).write
    exact earlier_of_le written (tracks k f hf).write (least k f hf) (lastWrite_ne ne.symm written)
  | lru =>
    obtain ⟨e, he, least⟩ := lruVictim_spec victim
    have used := (tracks v e he).use
    exact earlier_of_le used (tracks k f hf).use (least k f hf) (lastUse_ne ne.symm used)
  | lfu =>
    have plain : lfuVictim m = some v := (lfuVictim_lfuLevel m).symm.trans victim
    obtain ⟨e, he, least⟩ := lfuVictim_spec plain
    have written := (tracks v e he).write
    rw [Precedes, (tracks v e he).accesses_eq, (tracks k f hf).accesses_eq]
    rcases least k f hf with fewer | ⟨same, older⟩
    · exact .inl fewer
    · refine .inr ⟨same, ?_⟩
      exact earlier_of_le written (tracks k f hf).write older (lastWrite_ne ne.symm written)

/-! ### The eviction loop -/

/-- A victim selection among living entries that evicts the first one in the order of the strategy. -/
structure Round.Right (strategy : EvictionStrategy) (now : UInt64) (log : Log) (r : Round) : Prop where
  alive : Alive now r.entries
  present : ∃ e, r.entries.lookup r.victim = some e
  first : ∀ k e, r.entries.lookup k = some e → k ≠ r.victim → Precedes log r.victim k strategy
  unlevelled : strategy = .lfu → lfuVictim r.entries = some r.victim

private theorem len_lfuLevel (m : DashMap String Entry) : (lfuLevel m).len = m.len := by
  unfold lfuLevel
  split
  · rfl
  · exact DashMap.len_mapValues _ m

/-- There is no victim only among no entries. -/
theorem victimKey_eq_none (none : (victimKey strategy m).2 = none) :
    m.len = 0 ∧ (victimKey strategy m).1 = m := by
  cases strategy with
  | fifo => exact ⟨fifoVictim_eq_none.mp none, rfl⟩
  | lru => exact ⟨lruVictim_eq_none.mp none, rfl⟩
  | lfu =>
    have empty : m.len = 0 := by
      rw [← len_lfuLevel]
      exact lfuVictim_eq_none.mp none
    refine ⟨empty, ?_⟩
    change lfuLevel m = m
    unfold lfuLevel
    rw [List.length_eq_zero_iff.mp empty]
    rfl

/-- The loop stops, or evicts a victim and goes on. -/
inductive LoopStep (strategy : EvictionStrategy) (max rounds : Nat) (m : DashMap String Entry) : Prop
  | stop (room : m.len < max ∨ m.len = 0) (loop : evictLoop strategy max (rounds + 1) m = m)
    (past : loopRounds strategy max (rounds + 1) m = [])
  | evict {v : String} (victim : (victimKey strategy m).2 = some v)
    (loop : evictLoop strategy max (rounds + 1) m =
      evictLoop strategy max rounds ((victimKey strategy m).1.erase v))
    (next : loopRounds strategy max (rounds + 1) m =
      ⟨m, v⟩ :: loopRounds strategy max rounds ((victimKey strategy m).1.erase v))
    (full : ¬ m.len < max)

theorem loopStep (strategy : EvictionStrategy) (max rounds : Nat) (m : DashMap String Entry) :
    LoopStep strategy max rounds m := by
  by_cases room : m.len < max
  · refine .stop (.inl room) ?_ ?_
    · rw [evictLoop, if_pos room]
    · rw [loopRounds, if_pos room]
  · cases chosen : victimKey strategy m with
    | mk levelled victim =>
      have hl : (victimKey strategy m).1 = levelled := congrArg Prod.fst chosen
      have hv : (victimKey strategy m).2 = victim := congrArg Prod.snd chosen
      cases victim with
      | none =>
        obtain ⟨empty, same⟩ := victimKey_eq_none hv
        refine .stop (.inr empty) ?_ ?_
        · rw [evictLoop, if_neg room, chosen]
          exact hl.symm.trans same
        · rw [loopRounds, if_neg room, chosen]
      | some v =>
        refine .evict hv ?_ ?_ room
        · rw [evictLoop, if_neg room, chosen]
        · rw [loopRounds, if_neg room, chosen]

/-- Every round of the loop evicts the right entry. -/
theorem loopRounds_right {rounds : Nat} (tracks : Tracks log m) (alive : Alive now m)
    {done rest : List Round} {r : Round}
    (h : loopRounds strategy max rounds m = done ++ r :: rest) :
    r.Right strategy now (logRounds strategy done log) := by
  induction rounds generalizing m log done with
  | zero => exact absurd h.symm (by simp [loopRounds])
  | succ rounds ih =>
    cases loopStep strategy max rounds m with
    | stop _ _ past => exact absurd (past.symm.trans h).symm (by simp)
    | @evict v victim _ next =>
      have list := next.symm.trans h
      cases done with
      | nil =>
        cases (List.cons.inj list).1
        refine ⟨alive, victim_present victim, fun k e he ne => ?_, ?_⟩
        · exact victim_precedes tracks victim he ne
        · rintro rfl
          exact (lfuVictim_lfuLevel m).symm.trans victim
      | cons first done =>
        obtain ⟨rfl, tail⟩ := List.cons.inj list
        refine ih (tracks.victimKey.of_lookup DashMap.lookup_of_erase) ?_ tail
        exact fun key e he => alive_victimKey alive key e (DashMap.lookup_of_erase he)

theorem Tracks.evictLoop {rounds : Nat} (tracks : Tracks log m) :
    Tracks (logRounds strategy (loopRounds strategy max rounds m) log)
      (evictLoop strategy max rounds m) := by
  induction rounds generalizing m log with
  | zero => exact tracks
  | succ rounds ih =>
    cases loopStep strategy max rounds m with
    | stop _ loop past =>
      rw [loop, past]
      exact tracks
    | evict victim loop next =>
      rw [loop, next]
      exact ih (tracks.victimKey.of_lookup DashMap.lookup_of_erase)

private theorem lookup_victimKey_eq_none :
    (victimKey strategy m).1.lookup k = none ↔ m.lookup k = none := by
  cases strategy with
  | fifo | lru => exact Iff.rfl
  | lfu =>
    change (lfuLevel m).lookup k = none ↔ _
    rw [lookup_lfuLevel, Option.map_eq_none_iff]

/-- The loop evicts its victims and nothing else. -/
theorem lookup_evictLoop_eq_none {rounds : Nat} : (evictLoop strategy max rounds m).lookup k = none ↔
    m.lookup k = none ∨ ∃ r ∈ loopRounds strategy max rounds m, r.victim = k := by
  induction rounds generalizing m with
  | zero => simp [LocalBackend.evictLoop, loopRounds]
  | succ rounds ih =>
    cases loopStep strategy max rounds m with
    | stop _ loop past =>
      rw [loop, past]
      simp
    | @evict v victim loop next =>
      rw [loop, next, ih, List.exists_mem_cons_iff]
      by_cases same : k = v
      · subst same
        simp
      · rw [AList.lookup_erase_ne same, lookup_victimKey_eq_none]
        simp [Ne.symm same]

/-- A round of the loop removes an entry. -/
theorem len_erase_victim {v : String} (victim : (victimKey strategy m).2 = some v) :
    DashMap.len ((victimKey strategy m).1.erase v) + 1 = m.len := by
  obtain ⟨e, he⟩ := victim_present victim
  have present : ∃ e', (victimKey strategy m).1.lookup v = some e' := by
    rw [← Option.ne_none_iff_exists', Ne, lookup_victimKey_eq_none, he]
    exact Option.some_ne_none e
  obtain ⟨e', he'⟩ := present
  have same : (victimKey strategy m).1.len = m.len := by
    cases strategy with
    | fifo | lru => rfl
    | lfu => exact len_lfuLevel m
  exact (DashMap.len_erase he').trans same

/-- As many rounds as there are entries are enough. -/
theorem len_evictLoop_lt {rounds : Nat} (enough : m.len ≤ rounds) :
    (evictLoop strategy max rounds m).len < Nat.max max 1 := by
  induction rounds generalizing m with
  | zero => exact Nat.lt_of_le_of_lt enough (Nat.le_max_right max 1)
  | succ rounds ih =>
    cases loopStep strategy max rounds m with
    | stop room loop _ =>
      rw [loop]
      rcases room with fewer | empty
      · exact fewer.trans_le (Nat.le_max_left max 1)
      · rw [empty]
        exact Nat.le_max_right max 1
    | @evict v victim loop _ =>
      rw [loop]
      have fewer := len_erase_victim victim
      exact ih (by omega)

/-- After an eviction there is room for one more entry, and always for the first one. -/
theorem len_evictIfNeeded_lt (limit : b.config.maxEntries = some max) (now : UInt64) :
    (b.evictIfNeeded now).entries.len < Nat.max max 1 := by
  unfold evictIfNeeded
  rw [limit]
  dsimp only
  split
  · next room => exact room.trans_le (Nat.le_max_left max 1)
  · exact len_evictLoop_lt (Nat.le_refl _)

private theorem len_evictLoop_le {rounds : Nat} : (evictLoop strategy max rounds m).len ≤ m.len := by
  induction rounds generalizing m with
  | zero => exact Nat.le_refl _
  | succ rounds ih =>
    cases loopStep strategy max rounds m with
    | stop _ loop _ => rw [loop]
    | @evict v victim loop _ =>
      rw [loop]
      have fewer := len_erase_victim victim
      exact ih.trans (by omega)

theorem len_evictIfNeeded_le (now : UInt64) (b : LocalBackend) :
    (b.evictIfNeeded now).entries.len ≤ b.entries.len := by
  unfold evictIfNeeded
  split
  · exact Nat.le_refl _
  · split
    · exact Nat.le_refl _
    · exact len_evictLoop_le.trans (DashMap.len_retain_le _ _)

/-! ### One tick -/

theorem Tracks.evicted (tracks : Tracks log b.entries) (now : UInt64) :
    Tracks (logRounds b.config.eviction (b.evictionRounds now) log) (b.evictIfNeeded now).entries := by
  unfold evictionRounds evictIfNeeded
  cases b.config.maxEntries with
  | none => exact tracks
  | some max =>
    dsimp only
    split
    · exact tracks
    · exact Tracks.evictLoop (tracks.of_lookup DashMap.lookup_of_retain)

theorem Tracks.insert (tracks : Tracks log m) {seq : UInt64} (stamp : seq.toNat = stamps log)
    (bytes : Bytes) (expiresAtMs : UInt64) :
    Tracks (.wrote key :: log) (m.insert key ⟨bytes, expiresAtMs, seq, seq, 0⟩) := by
  intro k e he
  rcases DashMap.lookup_of_insert he with ⟨rfl, rfl⟩ | ⟨same, old⟩
  · refine ⟨?_, ?_, ?_⟩
    · exact (lastTime_cons_true (beq_self_eq_true k)).trans (congrArg some stamp.symm)
    · exact (lastTime_cons_true (beq_self_eq_true k)).trans (congrArg some stamp.symm)
    · simp [hitsSince, subtractedSince]
  · obtain ⟨write, use, count⟩ := tracks k e old
    have other : (key == k) = false := beq_false_of_ne (Ne.symm same)
    refine ⟨?_, ?_, ?_⟩
    · exact (lastTime_cons_false other).trans write
    · exact (lastTime_cons_false other).trans use
    · simpa [hitsSince, subtractedSince, Ne.symm same] using count

theorem Tracks.hit (tracks : Tracks log m) {seq : UInt64} (stamp : seq.toNat = stamps log)
    (few : stamps log + 1 < 2 ^ 64) (found : m.lookup key = some e) :
    Tracks (.hit key :: log) (m.replace key (touch seq e)) := by
  intro k f hf
  rw [DashMap.lookup_replace, Option.map_eq_some_iff] at hf
  obtain ⟨f', hf', rfl⟩ := hf
  obtain ⟨write, use, count⟩ := tracks k f' hf'
  by_cases same : k = key
  · subst same
    rw [found] at hf'
    cases hf'
    rw [if_pos rfl]
    refine ⟨(lastTime_cons_false rfl).trans write, ?_, ?_⟩
    · exact (lastTime_cons_true (beq_self_eq_true k)).trans (congrArg some stamp.symm)
    · have bound := hitsSince_le k log
      have one : (1 : UInt64).toNat = 1 := rfl
      have counted : (touch seq e).accesses.toNat = e.accesses.toNat + 1 := by
        rw [touch, toNat_saturatingAdd, one]
        omega
      rw [counted, hitsSince, if_pos rfl, subtractedSince, count]
      omega
  · rw [if_neg same]
    have other : (key == k) = false := beq_false_of_ne (Ne.symm same)
    refine ⟨(lastTime_cons_false rfl).trans write, (lastTime_cons_false other).trans use, ?_⟩
    simpa [hitsSince, subtractedSince, Ne.symm same] using count

/-- The backend is in step with the log. -/
structure Tracked (log : Log) (b : LocalBackend) : Prop where
  seq : b.seq.toNat = stamps log
  entries : Tracks log b.entries

private theorem toNat_succ {n : UInt64} (h : n.toNat + 1 < 2 ^ 64) : (n + 1).toNat = n.toNat + 1 := by
  rw [UInt64.toNat_add]
  exact Nat.mod_eq_of_lt h

@[simp] theorem evictIfNeeded_seq (now : UInt64) (b : LocalBackend) :
    (b.evictIfNeeded now).seq = b.seq := by
  unfold evictIfNeeded
  split
  · rfl
  · split
    · rfl
    · rfl

/-- What `put` and `bump_generation` do to the entries. -/
theorem Tracked.write (tracked : Tracked log b) (few : stamps log + 1 < 2 ^ 64) (now : UInt64)
    (key : String) (bytes : Bytes) (expiresAtMs : UInt64) :
    Tracked (.wrote key :: logRounds b.config.eviction (b.evictionRounds now) log)
      ((b.evictIfNeeded now).insertEntry key bytes expiresAtMs) := by
  have stamp : (b.evictIfNeeded now).seq.toNat =
      stamps (logRounds b.config.eviction (b.evictionRounds now) log) := by
    rw [evictIfNeeded_seq, stamps_logRounds, tracked.seq]
  constructor
  · have small : (b.evictIfNeeded now).seq.toNat + 1 < 2 ^ 64 := by
      rw [evictIfNeeded_seq, tracked.seq]
      exact few
    exact (toNat_succ small).trans (congrArg (· + 1) stamp)
  · exact (tracked.entries.evicted now).insert stamp bytes expiresAtMs

theorem Tracked.tick (tracked : Tracked log b) (few : stamps log + 1 < 2 ^ 64) (t : Tick) :
    Tracked (t.log blake3 b log) (t.apply blake3 b) := by
  obtain ⟨now, activity⟩ := t
  cases activity with
  | cleanup => exact ⟨tracked.seq, tracked.entries.of_lookup DashMap.lookup_of_retain⟩
  | call op =>
    cases op with
    | generation n => exact tracked
    | put key value ttl => exact tracked.write few now _ _ _
    | bumpGeneration n =>
      have bumped : Tracked log (b.bump n).2 := ⟨tracked.seq, tracked.entries⟩
      exact bumped.write few now _ _ _
    | get key =>
      change Tracked ((Tick.hit ⟨now, .call (.get key)⟩ b).toList.map .hit ++ log) (b.get key now).2
      unfold Tick.hit
      dsimp only
      cases got b key now with
      | hit found alive result =>
        rw [result]
        have small : b.seq.toNat + 1 < 2 ^ 64 := by
          rw [tracked.seq]
          exact few
        refine ⟨?_, tracked.entries.hit tracked.seq few found⟩
        exact (toNat_succ small).trans (congrArg (· + 1) tracked.seq)
      | expired found past result =>
        rw [result]
        exact ⟨tracked.seq, tracked.entries.of_lookup DashMap.lookup_of_erase⟩
      | absent missing result =>
        rw [result]
        exact tracked

/-! ### Over a whole history -/

private theorem stamps_tick (t : Tick) (b : LocalBackend) (log : Log) :
    stamps (t.log blake3 b log) ≤ stamps log + 1 := by
  obtain ⟨now, activity⟩ := t
  cases activity with
  | cleanup => exact Nat.le_succ _
  | call op =>
    cases op with
    | generation n => exact Nat.le_succ _
    | put key value ttl => exact (congrArg (· + 1) (stamps_logRounds _ _ log)).le
    | bumpGeneration n => exact (congrArg (· + 1) (stamps_logRounds _ _ log)).le
    | get key =>
      change stamps ((Tick.hit ⟨now, .call (.get key)⟩ b).toList.map .hit ++ log) ≤ _
      cases Tick.hit ⟨now, .call (.get key)⟩ b with
      | none => exact Nat.le_succ _
      | some k => exact Nat.le_refl _

private theorem stamps_logOf (h : List Tick) : stamps (logOf blake3 config h) ≤ h.length := by
  induction h with
  | nil => exact Nat.le_refl _
  | cons t earlier ih => exact (stamps_tick t _ _).trans (Nat.succ_le_succ ih)

private theorem tracked_after {h : List Tick} (few : h.length < 2 ^ 64) :
    Tracked (logOf blake3 config h) (after blake3 config h) := by
  induction h with
  | nil => exact ⟨rfl, fun key e he => by cases he⟩
  | cons t earlier ih =>
    rw [List.length_cons] at few
    refine (ih (by omega)).tick ?_ t
    have bound : stamps (logOf blake3 config earlier) ≤ earlier.length := stamps_logOf earlier
    omega

/-- Every victim selection of `evictIfNeeded` is right. -/
theorem evictionRounds_right (tracks : Tracks log b.entries) {done rest : List Round} {r : Round}
    (h : b.evictionRounds now = done ++ r :: rest) :
    r.Right b.config.eviction now (logRounds b.config.eviction done log) := by
  unfold evictionRounds at h
  split at h
  · exact absurd h.symm (by simp)
  · split at h
    · exact absurd h.symm (by simp)
    · exact loopRounds_right (tracks.of_lookup DashMap.lookup_of_retain) (alive_prune now b) h

/-- What `evictIfNeeded` evicts are its victims. -/
theorem lookup_evictIfNeeded_eq_none (he : b.entries.lookup k = some e)
    (alive : now < e.expiresAtMs) : (b.evictIfNeeded now).entries.lookup k = none ↔
      ∃ r ∈ b.evictionRounds now, r.victim = k := by
  have absent : b.entries.lookup k ≠ none := by
    rw [he]
    exact Option.some_ne_none e
  unfold evictionRounds evictIfNeeded
  cases b.config.maxEntries with
  | none => simpa using absent
  | some max =>
    dsimp only
    split
    · simpa using absent
    · have pruned : (b.prune now).entries.lookup k = some e :=
        DashMap.lookup_retain he (decide_eq_true alive)
      refine lookup_evictLoop_eq_none.trans (or_iff_right ?_)
      rw [pruned]
      exact Option.some_ne_none e

theorem Tick.lookup_apply_eq_none {t : Tick} {w : String} (writes : t.writes blake3 = some w)
    (he : b.entries.lookup k = some e) (alive : t.now < e.expiresAtMs) (other : k ≠ w) :
    (t.apply blake3 b).entries.lookup k = none ↔ ∃ r ∈ t.rounds blake3 b, r.victim = k := by
  unfold Tick.rounds
  rw [writes]
  obtain ⟨now, activity⟩ := t
  cases activity with
  | cleanup => cases writes
  | call op =>
    cases op with
    | get | generation => cases writes
    | put key value ttl =>
      cases writes
      simp only [Tick.apply, perform, List.foldl_nil, put, insertEntry]
      rw [AList.lookup_insert_ne other]
      exact lookup_evictIfNeeded_eq_none he alive
    | bumpGeneration n =>
      cases writes
      simp only [Tick.apply, perform, List.foldl_nil, bumpGeneration, insertEntry]
      rw [AList.lookup_insert_ne other]
      exact lookup_evictIfNeeded_eq_none (b := (b.bump n).2) he alive

/-- After every history of fewer than 2^64 ticks, a `put` or `bump_generation` evicts exactly its
victims among the living entries. When it selects a victim, no expired entry is left, and the victim
comes before all other entries in the order of the strategy: by the last write, by the last write or
hit, or by the accesses and then the last write. The subtraction of `Lfu` changes neither the order
of two entries nor the victim. -/
theorem evictions_in_order {h : List Tick} (few : h.length < 2 ^ 64) (t : Tick) :
    (∀ w, t.writes blake3 = some w → ∀ k e, (after blake3 config h).entries.lookup k = some e →
      t.now < e.expiresAtMs → k ≠ w →
      ((t.apply blake3 (after blake3 config h)).entries.lookup k = none ↔
        ∃ r ∈ t.rounds blake3 (after blake3 config h), r.victim = k)) ∧
    (∀ done r rest, t.rounds blake3 (after blake3 config h) = done ++ r :: rest →
      r.Right config.eviction t.now (logRounds config.eviction done (logOf blake3 config h))) ∧
    ∀ m j k e f, m.lookup j = some e → m.lookup k = some f →
      ∃ e' f', (lfuLevel m).lookup j = some e' ∧ (lfuLevel m).lookup k = some f' ∧
        (e'.accesses ≤ f'.accesses ↔ e.accesses ≤ f.accesses) := by
  refine ⟨?_, ?_, ?_⟩
  · exact fun w writes k e he alive other => Tick.lookup_apply_eq_none writes he alive other
  · intro done r rest hr
    unfold Tick.rounds at hr
    split at hr
    · have right := evictionRounds_right (tracked_after few).entries hr
      rwa [after_config] at right
    · exact absurd hr.symm (by simp)
  · intro m j k e f he hf
    refine ⟨_, _, ?_, ?_, lower_le_iff he hf⟩
    · rw [lookup_lfuLevel, he, Option.map_some]
    · rw [lookup_lfuLevel, hf, Option.map_some]

end
/-- Two values are put. -/
def Sample.puts : List Tick :=
  [⟨6, .call (.put "b" [2] (.fromSecs 1))⟩, ⟨5, .call (.put "a" [1] (.fromSecs 1))⟩]

/-- The third entry of a backend for two evicts the first one. -/
theorem oldest_evicted : ∃ r,
    (⟨7, .call (.put "c" [3] (.fromSecs 1))⟩ : Tick).rounds Sample.hash
      (after Sample.hash { maxEntries := some 2 } Sample.puts) = [r] ∧ r.victim = "entry:a" ∧
    r.Right .fifo 7 (logOf Sample.hash { maxEntries := some 2 } Sample.puts) := by
  have few : Sample.puts.length < 2 ^ 64 := by decide
  refine ⟨_, rfl, rfl, ?_⟩
  have right : ∀ done r rest, (⟨7, .call (.put "c" [3] (.fromSecs 1))⟩ : Tick).rounds Sample.hash
      (after Sample.hash { maxEntries := some 2 } Sample.puts) = done ++ r :: rest →
      r.Right .fifo 7 (logRounds .fifo done (logOf Sample.hash { maxEntries := some 2 } Sample.puts)) :=
    (evictions_in_order few _).2.1
  exact right [] _ [] rfl

end RbatisCache.LocalBackend
