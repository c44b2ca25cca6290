import RbatisCache.Spi.LocalBackend
import RbatisCache.Spi.Sample

/-! The local backend over a whole history. As a store it is a timed map: a value is there from the
last `put` on its key until the time to live is over. -/
namespace RbatisCache.LocalBackend

/-- One thing that happens to a backend: a call, or a round of the cleanup thread. -/
inductive Activity where
  | call (op : BackendOp)
  | cleanup
  deriving DecidableEq

structure Tick where
  now : UInt64
  activity : Activity
  deriving DecidableEq

/-- What happens at a tick. -/
def Tick.apply (blake3 : Bytes → String) (t : Tick) (b : LocalBackend) : LocalBackend :=
  match t.activity with
  | .call op => (perform blake3 op ⟨[], t.now⟩ b).2
  | .cleanup => b.prune t.now

/-- The backend after a history, which begins with its latest tick. -/
def after (blake3 : Bytes → String) (config : LocalBackendConfig) : List Tick → LocalBackend
  | [] => withConfig config
  | t :: earlier => t.apply blake3 (after blake3 config earlier)

/-- The clock never goes back. -/
def Ordered (h : List Tick) : Prop := h.Pairwise fun later earlier => earlier.now ≤ later.now

/-- The answer to a call after a history. -/
def answer (blake3 : Bytes → String) (config : LocalBackendConfig) (h : List Tick) (op : BackendOp)
    (now : UInt64) : op.Res :=
  (perform blake3 op ⟨[], now⟩ (after blake3 config h)).1

/-! ### The timed map -/

structure Put where
  time : UInt64
  value : Bytes
  ttl : Duration
  deriving DecidableEq

/-- The first millisecond at which the value is no longer there. -/
def Put.deadline (p : Put) : Nat := p.time.toNat + p.ttl.asMillis

def Tick.putOn (key : String) (t : Tick) : Option Put :=
  match t.activity with
  | .call (.put k value ttl) => if k = key then some ⟨t.now, value, ttl⟩ else none
  | _ => none

/-- The last `put` on a key. -/
def lastPut (key : String) : List Tick → Option Put
  | [] => none
  | t :: earlier => (t.putOn key).or (lastPut key earlier)

/-- A time to live of at least a millisecond and below 2^63 of them. -/
def Lives (ttl : Duration) : Prop := 1 ≤ ttl.asMillis ∧ ttl.asMillis < 2 ^ 63

/-- All values that are put live for a time. -/
def AllLive (h : List Tick) : Prop :=
  ∀ t ∈ h, ∀ key value ttl, t.activity = .call (.put key value ttl) → Lives ttl

/-- The entry holds the value of the `put`. -/
structure Put.StoredAs (p : Put) (e : Entry) : Prop where
  bytes : e.bytes = p.value
  expiry : e.expiresAtMs.toNat = min p.deadline (2 ^ 64 - 1)

/-- The same but for the bookkeeping of the eviction policies. -/
abbrev SameStored (e e' : Entry) : Prop := e.bytes = e'.bytes ∧ e.expiresAtMs = e'.expiresAtMs

section
variable {blake3 : Bytes → String} {config : LocalBackendConfig} {b : LocalBackend} {k : String}
variable {now : UInt64} {ttl : Duration} {t : Tick} {h : List Tick} {p : Put} {e e' : Entry}

theorem Put.StoredAs.of_same (stored : p.StoredAs e) (same : SameStored e e') : p.StoredAs e' :=
  ⟨same.1 ▸ stored.bytes, same.2 ▸ stored.expiry⟩

theorem SameStored.trans {a b c : Entry} (h : SameStored a b) (g : SameStored b c) :
    SameStored a c :=
  ⟨h.1.trans g.1, h.2.trans g.2⟩

private theorem toNat_expiry (lives : Lives ttl) :
    (saturatingAdd now (.ofNat ttl.asMillis)).toNat =
      min (now.toNat + ttl.asMillis) (2 ^ 64 - 1) := by
  have small : ttl.asMillis < 2 ^ 64 := by
    have := lives.2
    omega
  rw [toNat_saturatingAdd, UInt64.toNat_ofNat_of_lt' small]

/-! ### What a tick does to the entries -/

private theorem carries_evicted (now : UInt64) (b : LocalBackend) :
    Carries SameStored b.entries (b.evictIfNeeded now).entries :=
  carries_evictIfNeeded (R := SameStored) (fun _ _ => ⟨rfl, rfl⟩)
    (fun _ _ _ h g => SameStored.trans h g) now b

private theorem lookup_put_self {value : Bytes} (lives : Lives ttl)
    (he : (b.put k value ttl now).2.entries.lookup (entryKey k) = some e) :
    (⟨now, value, ttl⟩ : Put).StoredAs e := by
  simp only [put, insertEntry, Duration.isZero_of_asMillis lives.1, Bool.false_eq_true, if_false,
    AList.lookup_insert, Option.some_inj] at he
  subst he
  exact ⟨rfl, toNat_expiry lives⟩

/-- Values that are not put at a tick were there before. -/
theorem Tick.carries (none : t.putOn k = none)
    (he : (t.apply blake3 b).entries.lookup (entryKey k) = some e) :
    ∃ e', b.entries.lookup (entryKey k) = some e' ∧ SameStored e' e := by
  obtain ⟨now, activity⟩ := t
  cases activity with
  | cleanup => exact ⟨e, DashMap.lookup_of_retain he, rfl, rfl⟩
  | call op =>
    cases op with
    | get key => exact carries_get (fun _ _ _ => ⟨rfl, rfl⟩) b key now _ e he
    | generation n => exact ⟨e, he, rfl, rfl⟩
    | bumpGeneration n =>
      simp only [Tick.apply, perform, List.foldl_nil, bumpGeneration, insertEntry] at he
      rw [AList.lookup_insert_ne (entryKey_ne_generationKey blake3 k n)] at he
      exact carries_evicted now (b.bump n).2 _ e he
    | put key value ttl =>
      have other : entryKey k ≠ entryKey key := by
        intro same
        simp [Tick.putOn, entryKey_inj same] at none
      simp only [Tick.apply, perform, List.foldl_nil, put, insertEntry] at he
      rw [AList.lookup_insert_ne other] at he
      exact carries_evicted now b _ e he

private theorem get_kept (key : String) (he : b.entries.lookup (entryKey k) = some e)
    (alive : now < e.expiresAtMs) :
    ∃ e', (b.get key now).2.entries.lookup (entryKey k) = some e' := by
  cases got b key now with
  | hit _ _ result =>
    rw [result, DashMap.lookup_replace, he]
    exact ⟨_, rfl⟩
  | expired found past result =>
    have other : entryKey k ≠ entryKey key := by
      intro same
      rw [← same, he] at found
      cases found
      exact absurd alive (UInt64.not_lt.mpr past)
    rw [result, AList.lookup_erase_ne other]
    exact ⟨e, he⟩
  | absent _ result =>
    rw [result]
    exact ⟨e, he⟩

/-- There is room for another entry. -/
def Room (b : LocalBackend) : Prop := ∀ max ∈ b.config.maxEntries, b.entries.len < max

theorem evictIfNeeded_of_room (room : b.Room) (now : UInt64) : b.evictIfNeeded now = b := by
  unfold evictIfNeeded
  cases limit : b.config.maxEntries with
  | none => rfl
  | some max => exact if_pos (room max limit)

/-- As long as there is room, entries only go when they have expired. -/
theorem Tick.kept (room : b.Room)
    (he : b.entries.lookup (entryKey k) = some e) (alive : t.now < e.expiresAtMs) :
    ∃ e', (t.apply blake3 b).entries.lookup (entryKey k) = some e' := by
  obtain ⟨now, activity⟩ := t
  cases activity with
  | cleanup => exact ⟨e, DashMap.lookup_retain he (decide_eq_true alive)⟩
  | call op =>
    cases op with
    | get key => exact get_kept key he alive
    | generation n => exact ⟨e, he⟩
    | bumpGeneration n =>
      refine ⟨e, ?_⟩
      simp only [Tick.apply, perform, List.foldl_nil, bumpGeneration, insertEntry]
      rw [AList.lookup_insert_ne (entryKey_ne_generationKey blake3 k n),
        evictIfNeeded_of_room (b := (b.bump n).2) room]
      exact he
    | put key value ttl =>
      simp only [Tick.apply, perform, List.foldl_nil, put, insertEntry]
      by_cases same : entryKey k = entryKey key
      · rw [same, AList.lookup_insert]
        exact ⟨_, rfl⟩
      · rw [AList.lookup_insert_ne same, evictIfNeeded_of_room room]
        exact ⟨e, he⟩

@[simp] theorem evictIfNeeded_config (now : UInt64) (b : LocalBackend) :
    (b.evictIfNeeded now).config = b.config := by
  unfold evictIfNeeded
  split
  · rfl
  · split
    · rfl
    · rfl

private theorem get_config (b : LocalBackend) (key : String) (now : UInt64) :
    (b.get key now).2.config = b.config := by
  cases got b key now with
  | hit _ _ result | expired _ _ result | absent _ result => rw [result]

theorem Tick.apply_config (t : Tick) (b : LocalBackend) : (t.apply blake3 b).config = b.config := by
  obtain ⟨now, activity⟩ := t
  cases activity with
  | cleanup => rfl
  | call op =>
    cases op with
    | get key => exact get_config b key now
    | generation n => rfl
    | put key value ttl => exact evictIfNeeded_config now b
    | bumpGeneration n => exact evictIfNeeded_config now (b.bump n).2

theorem after_config : (after blake3 config h).config = config := by
  induction h with
  | nil => rfl
  | cons t earlier ih => exact (Tick.apply_config t _).trans ih

/-! ### Over a whole history -/

theorem AllLive.tail (live : AllLive (t :: h)) : AllLive h :=
  fun s hs => live s (List.mem_cons_of_mem _ hs)

theorem lastPut_cons_none (none : t.putOn k = none) : lastPut k (t :: h) = lastPut k h := by
  rw [lastPut, none, Option.none_or]

theorem lastPut_cons_some (some : t.putOn k = some p) : lastPut k (t :: h) = .some p := by
  rw [lastPut, some, Option.some_or]

theorem Tick.activity_of_putOn (some : t.putOn k = some p) :
    t = ⟨p.time, .call (.put k p.value p.ttl)⟩ := by
  obtain ⟨now, activity⟩ := t
  unfold Tick.putOn at some
  dsimp only at some
  split at some
  · split at some
    · next same =>
      subst same
      cases some
      rfl
    · cases some
  · cases some

/-- Every entry holds the last value that was put. -/
theorem stored_of_lookup (live : AllLive h)
    (he : (after blake3 config h).entries.lookup (entryKey k) = some e) :
    ∃ p, lastPut k h = some p ∧ p.StoredAs e := by
  induction h generalizing e with
  | nil => cases he
  | cons t earlier ih =>
    cases hp : t.putOn k with
    | none =>
      obtain ⟨e', he', same⟩ := Tick.carries hp he
      obtain ⟨p, last, stored⟩ := ih live.tail he'
      exact ⟨p, (lastPut_cons_none hp).trans last, stored.of_same same⟩
    | some p =>
      have lives : Lives p.ttl := by
        obtain rfl := Tick.activity_of_putOn hp
        exact live _ List.mem_cons_self _ _ _ rfl
      obtain rfl := Tick.activity_of_putOn hp
      exact ⟨p, lastPut_cons_some hp, lookup_put_self lives he⟩

/-- There was room at every tick. -/
def NeverFull (blake3 : Bytes → String) (config : LocalBackendConfig) (h : List Tick) : Prop :=
  ∀ t s, t :: s <:+ h → (after blake3 config s).Room

theorem neverFull_of_unbounded (unbounded : config.maxEntries = none) :
    NeverFull blake3 config h := by
  intro t s _ max limit
  rw [after_config, unbounded] at limit
  cases limit

theorem NeverFull.suffix {s : List Tick} (room : NeverFull blake3 config h) (hs : s <:+ h) :
    NeverFull blake3 config s :=
  fun t q hq => room t q (hq.trans hs)

/-- As long as there is room, the last value that was put is there until it expires. -/
theorem lookup_of_lastPut (room : NeverFull blake3 config h) (live : AllLive h)
    (last : lastPut k h = some p)
    (early : ∀ t ∈ h, t.now.toNat < min p.deadline (2 ^ 64 - 1)) :
    ∃ e, (after blake3 config h).entries.lookup (entryKey k) = some e := by
  induction h with
  | nil => cases last
  | cons t earlier ih =>
    cases hp : t.putOn k with
    | none =>
      rw [lastPut_cons_none hp] at last
      obtain ⟨e, he⟩ := ih (room.suffix (List.suffix_cons _ _)) live.tail last fun s hs =>
        early s (List.mem_cons_of_mem _ hs)
      obtain ⟨q, hq, stored⟩ := stored_of_lookup live.tail he
      rw [last] at hq
      cases hq
      refine Tick.kept (room t earlier (List.suffix_refl _)) he ?_
      rw [UInt64.lt_iff_toNat_lt, stored.expiry]
      exact early t List.mem_cons_self
    | some q =>
      obtain rfl := Tick.activity_of_putOn hp
      exact ⟨_, AList.lookup_insert _⟩

theorem answer_get : answer blake3 config h (.get k) now =
    .ok (((after blake3 config h).entries.lookup (entryKey k)).bind fun e =>
      if now < e.expiresAtMs then some e.bytes else none) :=
  get_answer _ k now

/-- What is returned is the last value that was put. -/
theorem put_of_answer (live : AllLive h) {value : Bytes}
    (answered : answer blake3 config h (.get k) now = .ok (some value)) :
    ∃ p, lastPut k h = some p ∧ p.value = value ∧ now.toNat < min p.deadline (2 ^ 64 - 1) := by
  rw [answer_get] at answered
  obtain ⟨e, he, returned⟩ := Option.bind_eq_some_iff.mp (Except.ok.inj answered)
  obtain ⟨p, last, stored⟩ := stored_of_lookup live he
  split at returned
  · next alive =>
    cases returned
    rw [UInt64.lt_iff_toNat_lt, stored.expiry] at alive
    exact ⟨p, last, stored.bytes.symm, alive⟩
  · cases returned

theorem answer_of_put (ordered : Ordered (t :: h)) (live : AllLive h)
    (room : NeverFull blake3 config h) (last : lastPut k h = some p)
    (early : t.now.toNat < min p.deadline (2 ^ 64 - 1)) :
    answer blake3 config h (.get k) t.now = .ok (some p.value) := by
  obtain ⟨later, -⟩ := List.pairwise_cons.mp ordered
  obtain ⟨e, he⟩ := lookup_of_lastPut room live last fun s hs =>
    lt_of_le_of_lt (UInt64.le_iff_toNat_le.mp (later s hs)) early
  obtain ⟨q, hq, stored⟩ := stored_of_lookup live he
  rw [last] at hq
  cases hq
  have alive : t.now < e.expiresAtMs := by
    rw [UInt64.lt_iff_toNat_lt, stored.expiry]
    exact early
  rw [answer_get, he, Option.bind_some, if_pos alive, stored.bytes]

/-- In every configuration and after every history, a `get` returns nothing but the last value that
was put under the key, and that only before its time to live is over. Without a limit on the number
of entries it returns the value exactly as long as the clock is before both the end of the time to
live and `u64::MAX`. -/
theorem local_backend_is_timed_map (ordered : Ordered (⟨now, .call (.get k)⟩ :: h))
    (live : AllLive h) (value : Bytes) :
    (answer blake3 config h (.get k) now = .ok (some value) →
      ∃ p, lastPut k h = some p ∧ p.value = value ∧ now.toNat < p.deadline) ∧
    (config.maxEntries = none → (answer blake3 config h (.get k) now = .ok (some value) ↔
      ∃ p, lastPut k h = some p ∧ p.value = value ∧ now.toNat < min p.deadline (2 ^ 64 - 1))) := by
  constructor
  · intro answered
    obtain ⟨p, last, hv, early⟩ := put_of_answer live answered
    exact ⟨p, last, hv, lt_of_lt_of_le early (Nat.min_le_left _ _)⟩
  · refine fun unbounded => ⟨put_of_answer live, ?_⟩
    rintro ⟨p, last, rfl, early⟩
    exact answer_of_put ordered live (neverFull_of_unbounded unbounded) last early

end
/-- Two values under one key, one under another, a bump, and a round of the cleanup thread when the
first value would be over: the second one is read back, with recency kept for the eviction. -/
theorem value_read_back :
    answer Sample.hash { eviction := .lru }
      [⟨1500, .cleanup⟩, ⟨900, .call (.bumpGeneration "ns")⟩, ⟨600, .call (.put "k" [8] (.fromSecs 1))⟩,
        ⟨300, .call (.get "k")⟩, ⟨100, .call (.put "other" [9] (.fromSecs 1))⟩,
        ⟨5, .call (.put "k" [7] (.fromSecs 1))⟩] (.get "k") 1599 = .ok (some [8]) := by
  refine ((local_backend_is_timed_map ?_ ?_ [8]).2 rfl).mpr
    ⟨⟨600, [8], .fromSecs 1⟩, rfl, rfl, by decide⟩
  · rw [Ordered]
    decide
  · intro t ht key value ttl put
    have lives : ttl = .fromSecs 1 := by
      simp only [List.mem_cons, List.not_mem_nil, or_false] at ht
      rcases ht with rfl | rfl | rfl | rfl | rfl | rfl <;> cases put <;> rfl
    rw [lives]
    exact ⟨by decide, by decide⟩

/-- At the end of the clock a value is gone at once. -/
theorem value_lost_at_end_of_clock :
    answer Sample.hash {} [⟨u64Max, .call (.put "k" [7] (.fromSecs 1))⟩] (.get "k") u64Max = .ok none ∧
    lastPut "k" [⟨u64Max, .call (.put "k" [7] (.fromSecs 1))⟩] = some ⟨u64Max, [7], .fromSecs 1⟩ ∧
    u64Max.toNat < (⟨u64Max, [7], .fromSecs 1⟩ : Put).deadline := by
  decide

end RbatisCache.LocalBackend
