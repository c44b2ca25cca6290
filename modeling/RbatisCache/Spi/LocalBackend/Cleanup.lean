import RbatisCache.Spi.LocalBackend.Capacity

/-! The cleanup thread is invisible: two backends that differ by expired entries only answer alike, and
what happens to them keeps it so. -/
namespace RbatisCache.LocalBackend

def unexpired (now : UInt64) (_ : String) (e : Entry) : Bool := decide (now < e.expiresAtMs)

/-- The backends are the same but for entries that have expired. -/
def Alike (now : UInt64) (b b' : LocalBackend) : Prop := b.prune now = b'.prune now

def Tick.isCall (t : Tick) : Bool :=
  match t.activity with
  | .call _ => true
  | .cleanup => false

/-- A call and what it returned. -/
abbrev Answer := Σ op : BackendOp, op.Res

def Tick.answer (blake3 : Bytes → String) (t : Tick) (b : LocalBackend) : List Answer :=
  match t.activity with
  | .call op => [⟨op, (perform blake3 op ⟨[], t.now⟩ b).1⟩]
  | .cleanup => []

/-- All calls of a history with what they returned, the latest first. -/
def answers (blake3 : Bytes → String) (config : LocalBackendConfig) : List Tick → List Answer
  | [] => []
  | t :: earlier => t.answer blake3 (after blake3 config earlier) ++ answers blake3 config earlier

section
variable {blake3 : Bytes → String} {config : LocalBackendConfig} {b b' : LocalBackend}
variable {now time : UInt64} {h : List Tick} {e : Entry} {key : String} {max rounds : Nat}
variable {m : DashMap String Entry} {strategy : EvictionStrategy}

/-! ### Dropping the expired entries -/

private theorem prune_congr
    (entries : b.entries.retain (unexpired now) = b'.entries.retain (unexpired now))
    (generations : b.generations = b'.generations) (seq : b.seq = b'.seq)
    (config : b.config = b'.config) : b.prune now = b'.prune now := by
  change (⟨_, _, _, _⟩ : LocalBackend) = ⟨_, _, _, _⟩
  rw [LocalBackend.mk.injEq]
  exact ⟨entries, generations, seq, config⟩

/-- What has been dropped once is not there later. -/
theorem prune_prune (le : now ≤ time) (b : LocalBackend) : (b.prune now).prune time = b.prune time := by
  unfold prune
  rw [DashMap.retain_retain]
  congr 2
  funext _ e
  rw [← Bool.decide_and]
  refine decide_eq_decide.mpr (and_iff_left_of_imp fun alive => ?_)
  exact UInt64.lt_of_le_of_lt le alive

theorem Alike.later (alike : Alike now b b') (le : now ≤ time) : Alike time b b' := by
  unfold Alike at alike ⊢
  rw [← prune_prune le b, alike, prune_prune le b']

private theorem prune_of_alive (alive : Alive now b.entries) : b.prune now = b := by
  have same : b.entries.retain (fun _ e => decide (now < e.expiresAtMs)) = b.entries := by
    apply AList.ext
    refine List.filter_eq_self.mpr fun e he => decide_eq_true ?_
    exact alive e.1 e.2 (AList.mem_lookup_iff.mpr he)
  unfold prune
  rw [same]

private theorem alive_evictLoop (alive : Alive now m) : Alive now (evictLoop strategy max rounds m) :=
  alive.carried (carries_evictLoop (R := fun e e' => e.expiresAtMs = e'.expiresAtMs) (fun _ _ => rfl)
    (fun _ _ _ h g => h.trans g) _ _ _ _)

/-- An eviction is the same with and without the expired entries. -/
theorem prune_evictIfNeeded (now : UInt64) (b : LocalBackend) :
    (b.evictIfNeeded now).prune now = (b.prune now).evictIfNeeded now := by
  cases limit : b.config.maxEntries with
  | none =>
    have unbounded (c : LocalBackend) (same : c.config = b.config) : c.evictIfNeeded now = c := by
      refine evictIfNeeded_of_room (fun max some => ?_) now
      rw [same, limit] at some
      cases some
    rw [unbounded b rfl, unbounded (b.prune now) rfl]
  | some max =>
    have limit' : (b.prune now).config.maxEntries = some max := limit
    by_cases room : b.entries.len < max
    · have roomy (c : LocalBackend) (same : c.config = b.config) (le : c.entries.len ≤ b.entries.len) :
          c.Room := by
        intro max' some
        rw [same, limit] at some
        cases some
        exact Nat.lt_of_le_of_lt le room
      rw [evictIfNeeded_of_room (roomy b rfl (Nat.le_refl _)),
        evictIfNeeded_of_room (roomy (b.prune now) rfl (DashMap.len_retain_le _ _))]
    · have full : b.evictIfNeeded now = ⟨evictLoop b.config.eviction max (b.prune now).entries.len
          (b.prune now).entries, b.generations, b.seq, b.config⟩ := by
        rw [evictIfNeeded, limit]
        exact if_neg room
      have settled : (b.prune now).prune now = b.prune now := prune_prune (UInt64.le_refl now) b
      rw [full, prune_of_alive (alive_evictLoop (alive_prune now b)), evictIfNeeded, limit']
      dsimp only
      by_cases fits : (b.prune now).entries.len < max
      · rw [if_pos fits, evictLoop_of_room fits]
        rfl
      · rw [if_neg fits, settled]
        rfl

private theorem prune_insertEntry (now : UInt64) (b : LocalBackend) (key : String) (bytes : Bytes)
    (expiresAtMs : UInt64) : (b.insertEntry key bytes expiresAtMs).prune now =
      ((b.prune now).insertEntry key bytes expiresAtMs).prune now :=
  prune_congr (DashMap.retain_insert _ _ _ _) rfl rfl rfl

/-- A write is the same with and without the expired entries. -/
theorem prune_write (now : UInt64) (b : LocalBackend) (key : String) (bytes : Bytes)
    (expiresAtMs : UInt64) : ((b.evictIfNeeded now).insertEntry key bytes expiresAtMs).prune now =
      (((b.prune now).evictIfNeeded now).insertEntry key bytes expiresAtMs).prune now := by
  rw [prune_insertEntry, prune_evictIfNeeded]

/-! ### A `get` -/

private theorem get_hit (found : b.entries.lookup (entryKey key) = some e)
    (alive : now < e.expiresAtMs) :
    b.get key now = (.ok (some e.bytes), { b with
      entries := b.entries.replace (entryKey key) (touch b.seq e), seq := b.seq + 1 }) := by
  cases got b key now with
  | hit found' _ result =>
    rw [found] at found'
    cases found'
    exact result
  | expired found' past =>
    rw [found] at found'
    cases found'
    exact absurd alive (UInt64.not_lt.mpr past)
  | absent missing =>
    rw [found] at missing
    cases missing

private theorem get_absent (missing : b.entries.lookup (entryKey key) = none) :
    b.get key now = (.ok none, b) := by
  cases got b key now with
  | hit found | expired found =>
    rw [missing] at found
    cases found
  | absent _ result => exact result

/-- A `get` is the same with and without the expired entries. -/
theorem prune_get (key : String) (now : UInt64) (b : LocalBackend) :
    (b.get key now).1 = ((b.prune now).get key now).1 ∧
    (b.get key now).2.prune now = ((b.prune now).get key now).2.prune now := by
  cases got b key now with
  | @hit e found alive result =>
    have found' : (b.prune now).entries.lookup (entryKey key) = some e :=
      DashMap.lookup_retain found (decide_eq_true alive)
    rw [result, get_hit found' alive]
    refine ⟨rfl, prune_congr ?_ rfl rfl rfl⟩
    have same : DashMap.retain (unexpired now) (b.entries.replace (entryKey key) (touch b.seq e)) =
        (b.prune now).entries.replace (entryKey key) (touch b.seq e) :=
      DashMap.retain_replace found (decide_eq_true alive) (decide_eq_true alive)
    change _ = DashMap.retain (unexpired now)
      ((b.prune now).entries.replace (entryKey key) (touch b.seq e))
    rw [← same, DashMap.retain_retain]
    simp only [Bool.and_self]
  | @expired e found past result =>
    have gone : (b.prune now).entries.lookup (entryKey key) = none :=
      DashMap.lookup_retain_of_neg found (decide_eq_false (UInt64.not_lt.mpr past))
    rw [result, get_absent gone, prune_prune (UInt64.le_refl now) b]
    refine ⟨rfl, prune_congr ?_ rfl rfl rfl⟩
    rw [DashMap.retain_erase]
    exact DashMap.erase_of_lookup_eq_none gone
  | absent missing result =>
    have gone : (b.prune now).entries.lookup (entryKey key) = none :=
      DashMap.lookup_retain_of_absent _ missing
    rw [result, get_absent gone]
    exact ⟨rfl, (prune_prune (UInt64.le_refl now) b).symm⟩

/-! ### Over a whole history -/

/-- A tick answers and leaves the same with and without the expired entries. -/
theorem Tick.prune_apply (blake3 : Bytes → String) (t : Tick) (b : LocalBackend) :
    t.answer blake3 b = t.answer blake3 (b.prune t.now) ∧
    Alike t.now (t.apply blake3 b) (t.apply blake3 (b.prune t.now)) := by
  obtain ⟨now, activity⟩ := t
  have settled : (b.prune now).prune now = b.prune now := prune_prune (UInt64.le_refl now) b
  cases activity with
  | cleanup => exact ⟨rfl, congrArg (prune now) settled.symm⟩
  | call op =>
    cases op with
    | get key =>
      obtain ⟨value, state⟩ := prune_get key now b
      refine ⟨?_, state⟩
      change [(⟨.get key, (b.get key now).1⟩ : Answer)] = [⟨.get key, ((b.prune now).get key now).1⟩]
      rw [value]
    | generation n => exact ⟨rfl, settled.symm⟩
    | put key value ttl => exact ⟨rfl, prune_write now b _ _ _⟩
    | bumpGeneration n => exact ⟨rfl, prune_write now (b.bump n).2 _ _ _⟩

theorem Tick.alike (blake3 : Bytes → String) {t : Tick} (alike : Alike t.now b b') :
    t.answer blake3 b = t.answer blake3 b' ∧ Alike t.now (t.apply blake3 b) (t.apply blake3 b') := by
  obtain ⟨value, state⟩ := Tick.prune_apply blake3 t b
  obtain ⟨value', state'⟩ := Tick.prune_apply blake3 t b'
  rw [← alike] at value' state'
  exact ⟨value.trans value'.symm, state.trans state'.symm⟩

private theorem alike_after (ordered : Ordered h) (reached : ∀ t ∈ h, t.now ≤ time) :
    Alike time (after blake3 config h) (after blake3 config (h.filter Tick.isCall)) ∧
    answers blake3 config h = answers blake3 config (h.filter Tick.isCall) := by
  induction h generalizing time with
  | nil => exact ⟨rfl, rfl⟩
  | cons t earlier ih =>
    obtain ⟨before, ordered⟩ := List.pairwise_cons.mp ordered
    obtain ⟨alike, same⟩ := ih ordered before
    have le : t.now ≤ time := reached t List.mem_cons_self
    obtain ⟨now, activity⟩ := t
    cases activity with
    | cleanup =>
      have pruned : Alike now (after blake3 config (⟨now, .cleanup⟩ :: earlier))
          (after blake3 config earlier) := prune_prune (UInt64.le_refl now) _
      have both : Alike now (after blake3 config (⟨now, .cleanup⟩ :: earlier))
          (after blake3 config (earlier.filter Tick.isCall)) := pruned.trans alike
      exact ⟨both.later le, same⟩
    | call op =>
      obtain ⟨value, state⟩ := Tick.alike blake3 alike
      have kept : List.filter Tick.isCall (⟨now, .call op⟩ :: earlier) =
          ⟨now, .call op⟩ :: earlier.filter Tick.isCall := List.filter_cons_of_pos rfl
      rw [kept]
      exact ⟨state.later le, congrArg₂ (· ++ ·) value same⟩

/-- The rounds of the cleanup thread change no answer of the calls of a history. -/
theorem cleanup_is_invisible (ordered : Ordered h) :
    answers blake3 config h = answers blake3 config (h.filter Tick.isCall) := by
  cases h with
  | nil => rfl
  | cons t earlier =>
    have reached : ∀ s ∈ t :: earlier, s.now ≤ t.now := by
      intro s hs
      rcases List.mem_cons.mp hs with rfl | old
      · exact UInt64.le_refl _
      · exact (List.pairwise_cons.mp ordered).1 s old
    exact (alike_after ordered reached).2

end
/-- The thread runs once the first value has expired, and a full backend takes two more. -/
def Sample.cleaned : List Tick :=
  [⟨9, .call (.get "b")⟩, ⟨8, .call (.put "c" [3] (.fromSecs 1))⟩, ⟨7, .cleanup⟩,
    ⟨6, .call (.put "b" [2] (.fromSecs 1))⟩, ⟨5, .call (.put "a" [1] ⟨1000000⟩)⟩]

theorem cleanup_unnoticed : answers Sample.hash { maxEntries := some 2, eviction := .lfu } Sample.cleaned =
    answers Sample.hash { maxEntries := some 2, eviction := .lfu } (Sample.cleaned.filter Tick.isCall) := by
  refine cleanup_is_invisible ?_
  unfold Ordered Sample.cleaned
  decide

end RbatisCache.LocalBackend
