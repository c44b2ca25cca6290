import RbatisCache.Moka.Model
import RbatisCache.Spi.LocalBackend.Expiry

/-! The backend over moka next to the local one, call by call. Moka forgets everything after the time
to live of the cache, and counts the bumps of all namespaces together. -/
namespace RbatisCache.Moka
open LocalBackend (Tick Activity Put lastPut Ordered AllLive Lives NeverFull after)
open Interleaving Interleaving.Prog MokaCacheBackend

/-- The clock ticks in milliseconds. -/
def Stored.Live (ttl : Duration) (now : UInt64) (s : Stored) : Prop :=
  now.toNat * 1000000 < s.insertedAt.toNat * 1000000 + ttl.nanos

instance (ttl : Duration) (now : UInt64) (s : Stored) : Decidable (s.Live ttl now) :=
  inferInstanceAs (Decidable (_ < _))

/-- The keys whose time to live is over. -/
def expired (ttl : Duration) (now : UInt64) (w : World) : List String :=
  (w.cache.entries.filter fun e => !decide (e.2.Live ttl now)).map (·.1)

section
variable (blake3 : Bytes → String) (M : MokaCacheBackend)

/-- A call that runs alone. An entry is there until its time to live is over, and no longer. -/
def serve (op : BackendOp) (now : UInt64) (w : World) : op.Res × World :=
  (M.call blake3 op).run (fun o w => act o ⟨now, expired M.config.ttl now w⟩ w) w

/-- The shared fields after a history. -/
def ran : List Tick → World
  | [] => .new
  | t :: earlier =>
    match t.activity with
    | .call op => (serve blake3 M op t.now (ran earlier)).2
    | .cleanup => ran earlier

/-- The answer to a call after a history. -/
def answer (h : List Tick) (op : BackendOp) (now : UInt64) : op.Res :=
  (serve blake3 M op now (ran blake3 M h)).1

end

/-! ### The calls at which the two agree -/

def isBump (t : Tick) : Bool :=
  match t.activity with
  | .call (.bumpGeneration _) => true
  | _ => false

/-- The bumps of all namespaces. -/
def bumps (h : List Tick) : Nat := h.countP isBump

def isBumpOf (n : String) (t : Tick) : Bool := t.activity == .call (.bumpGeneration n)

def bumpsOf (n : String) (h : List Tick) : Nat := h.countP (isBumpOf n)

structure Bump where
  time : UInt64
  /-- Its place among the bumps of all namespaces. -/
  number : Nat

/-- The last bump of a namespace. -/
def lastBump (n : String) : List Tick → Option Bump
  | [] => none
  | t :: earlier =>
    if isBumpOf n t then some ⟨t.now, bumps earlier + 1⟩ else lastBump n earlier

/-- At this time the time to live is over. -/
def Over (ttl : Duration) (time now : UInt64) : Prop :=
  time.toNat * 1000000 + ttl.nanos ≤ now.toNat * 1000000

instance (ttl : Duration) (time now : UInt64) : Decidable (Over ttl time now) :=
  inferInstanceAs (Decidable (_ ≤ _))

/-- When a call after a history has the same answer: a value is read while it lives in both backends
or in none, a generation while the bumps that count for moka are those of the namespace. -/
def Agrees (ttl : Duration) (h : List Tick) (now : UInt64) : BackendOp → Prop
  | .get k => ∀ p ∈ lastPut k h, now.toNat < p.deadline ∨ Over ttl p.time now
  | .put _ _ _ => True
  | .generation n => ∀ b ∈ lastBump n h, ¬ Over ttl b.time now ∧ b.number = bumpsOf n h
  | .bumpGeneration n => bumps h = bumpsOf n h

/-- A value is put for at least a millisecond, and for no longer than moka keeps it. -/
def Within (ttl : Duration) : Activity → Prop
  | .call (.put _ _ own) => 1 ≤ own.asMillis ∧ own.nanos ≤ ttl.nanos
  | _ => True

instance (ttl : Duration) : ∀ a, Decidable (Within ttl a)
  | .call (.put _ _ _) => inferInstanceAs (Decidable (_ ∧ _))
  | .call (.get _) | .call (.generation _) | .call (.bumpGeneration _) | .cleanup => .isTrue trivial

/-- A sequence of calls, with rounds of the cleanup thread, on which the backends can be compared. -/
structure Comparable (blake3 : Bytes → String) (config : LocalBackendConfig) (M : MokaCacheBackend)
    (h : List Tick) : Prop where
  ordered : Ordered h
  clock : ∀ t ∈ h, t.now < u64Max
  room : NeverFull blake3 config h
  few : bumps h < 2 ^ 64
  ttls : ∀ t ∈ h, Within M.config.ttl t.activity

section
variable {blake3 : Bytes → String} {config : LocalBackendConfig} {M : MokaCacheBackend}
variable {n k key : String} {h s : List Tick} {t : Tick} {now : UInt64} {ttl : Duration}
variable {w : World}

theorem Comparable.suffix (c : Comparable blake3 config M h) (hs : s <:+ h) :
    Comparable blake3 config M s where
  ordered := List.Pairwise.sublist hs.sublist c.ordered
  clock t ht := c.clock t (hs.subset ht)
  room := c.room.suffix hs
  few := Nat.lt_of_le_of_lt hs.sublist.countP_le c.few
  ttls t ht := c.ttls t (hs.subset ht)

/-- What a read finds under a key. -/
def find (ttl : Duration) (now : UInt64) (m : DashMap String Stored) (key : String) :
    Option Stored :=
  (m.lookup key).filter fun s => decide (s.Live ttl now)

private theorem mem_expired {stored : Stored} (hl : w.cache.lookup key = some stored) :
    key ∈ expired ttl now w ↔ ¬ stored.Live ttl now := by
  simp only [expired, List.mem_map, List.mem_filter, Bool.not_eq_true', decide_eq_false_iff_not]
  constructor
  · rintro ⟨e, ⟨he, past⟩, rfl⟩
    have same : w.cache.lookup e.1 = some e.2 := AList.mem_lookup_iff.mpr he
    rw [hl] at same
    cases same
    exact past
  · exact fun past => ⟨⟨key, stored⟩, ⟨AList.mem_lookup_iff.mp hl, past⟩, rfl⟩

/-- Moka's housekeeping. -/
theorem lookup_housekept (ttl : Duration) (now : UInt64) (w : World) (key : String) :
    (w.cache.retain fun k _ => !(expired ttl now w).contains k).lookup key =
      find ttl now w.cache key := by
  unfold find
  cases hl : w.cache.lookup key with
  | none =>
    by_contra present
    obtain ⟨stored, hs⟩ := Option.ne_none_iff_exists'.mp present
    rw [DashMap.lookup_of_retain hs] at hl
    cases hl
  | some stored =>
    by_cases live : stored.Live ttl now
    · rw [Option.filter_some, if_pos (decide_eq_true live)]
      refine DashMap.lookup_retain hl ?_
      simp [mem_expired hl, live]
    · rw [Option.filter_some, if_neg (by simp [live])]
      by_contra present
      obtain ⟨stored', hs⟩ := Option.ne_none_iff_exists'.mp present
      have mem := (List.mem_filter.mp (AList.mem_lookup_iff.mp hs)).2
      simp [(mem_expired hl).mpr live] at mem

private theorem find_of_lookup {w' : World} (hl : ∀ key, w'.cache.lookup key = find ttl now w.cache key)
    (key : String) : find ttl now w'.cache key = find ttl now w.cache key := by
  rw [find, hl, find, Option.filter_filter]
  simp

/-! ### What a call does -/

section
variable (blake3 : Bytes → String) (M : MokaCacheBackend)

private theorem serve_get (k : String) (now : UInt64) (w : World) :
    (serve blake3 M (.get k) now w).1 =
      .ok ((find M.config.ttl now w.cache (M.entryKey k)).map Stored.value) ∧
    (serve blake3 M (.get k) now w).2.generation = w.generation ∧
    ∀ key, (serve blake3 M (.get k) now w).2.cache.lookup key =
      find M.config.ttl now w.cache key := by
  refine ⟨?_, rfl, lookup_housekept _ _ _⟩
  rw [← lookup_housekept]
  rfl

private theorem serve_generation (n : String) (now : UInt64) (w : World) :
    (serve blake3 M (.generation n) now w).1 =
      .ok ((((find M.config.ttl now w.cache (M.generationKey blake3 n)).map Stored.value).bind
        ofRecord).getD 0) ∧
    (serve blake3 M (.generation n) now w).2.generation = w.generation ∧
    ∀ key, (serve blake3 M (.generation n) now w).2.cache.lookup key =
      find M.config.ttl now w.cache key := by
  refine ⟨?_, rfl, lookup_housekept _ _ _⟩
  rw [← lookup_housekept]
  rfl

private theorem serve_put (k : String) (value : Bytes) (own : Duration) (now : UInt64) (w : World) :
    (serve blake3 M (.put k value own) now w).2.generation = w.generation ∧
    (serve blake3 M (.put k value own) now w).2.cache.lookup (M.entryKey k) = some ⟨value, now⟩ ∧
    ∀ key, key ≠ M.entryKey k → (serve blake3 M (.put k value own) now w).2.cache.lookup key =
      find M.config.ttl now w.cache key := by
  refine ⟨rfl, AList.lookup_insert _, fun key other => ?_⟩
  exact (AList.lookup_insert_ne other).trans (lookup_housekept _ _ _ _)

private theorem serve_bump (n : String) (now : UInt64) (w : World) :
    (serve blake3 M (.bumpGeneration n) now w).1 = .ok (saturatingAdd w.generation 1) ∧
    (serve blake3 M (.bumpGeneration n) now w).2.generation = w.generation + 1 ∧
    (serve blake3 M (.bumpGeneration n) now w).2.cache.lookup (M.generationKey blake3 n) =
      some ⟨toLeBytes (saturatingAdd w.generation 1), now⟩ ∧
    ∀ key, key ≠ M.generationKey blake3 n →
      (serve blake3 M (.bumpGeneration n) now w).2.cache.lookup key =
        find M.config.ttl now w.cache key := by
  unfold serve MokaCacheBackend.call bumpGeneration
  simp only [bind_eq, perform_bind, pure_eq, Prog.run, act]
  refine ⟨trivial, trivial, AList.lookup_insert _, fun key other => ?_⟩
  rw [AList.lookup_insert_ne other, lookup_housekept]
  exact find_of_lookup (fun key => lookup_housekept _ _ _ key) key

end

/-! ### What moka holds after a history -/

/-- From now on a read under the key finds this or, when its time is over, nothing. -/
def Holds (ttl : Duration) (h : List Tick) (w : World) (key : String) (held : Option Stored) : Prop :=
  ∀ now, (∀ t ∈ h, t.now ≤ now) →
    find ttl now w.cache key = held.filter fun s => decide (s.Live ttl now)

theorem Stored.Live.earlier {stored : Stored} {later : UInt64} (live : stored.Live ttl later)
    (le : now ≤ later) : stored.Live ttl now :=
  Nat.lt_of_le_of_lt (Nat.mul_le_mul_right _ (UInt64.le_iff_toNat_le.mp le)) live

theorem Holds.age {held : Option Stored} {w' : World} (holds : Holds ttl h w key held)
    (ordered : Ordered (t :: h)) (hl : w'.cache.lookup key = find ttl t.now w.cache key) :
    Holds ttl (t :: h) w' key held := by
  intro now later
  have le := later t List.mem_cons_self
  rw [find, hl, holds t.now (List.pairwise_cons.mp ordered).1, Option.filter_filter]
  congr 1
  funext stored
  by_cases live : stored.Live ttl now
  · simp [live, live.earlier le]
  · simp [live]

private theorem holds_inserted {stored : Stored} {w' : World}
    (hl : w'.cache.lookup key = some stored) : Holds ttl h w' key (some stored) := by
  intro now _
  rw [find, hl]

theorem Holds.wait {held : Option Stored} (holds : Holds ttl h w key held) :
    Holds ttl (t :: h) w key held :=
  fun now later => holds now fun s hs => later s (List.mem_cons_of_mem _ hs)

/-- What is stored under the generation key. -/
def Bump.record (b : Bump) : Stored := ⟨toLeBytes (.ofNat b.number), b.time⟩

/-- What the cache holds of the values, the records and the counter. -/
structure Mirrors (blake3 : Bytes → String) (M : MokaCacheBackend) (h : List Tick) (w : World) :
    Prop where
  values : ∀ k, Holds M.config.ttl h w (M.entryKey k)
    ((lastPut k h).map fun p => ⟨p.value, p.time⟩)
  records : ∀ n, Holds M.config.ttl h w (M.generationKey blake3 n) ((lastBump n h).map Bump.record)
  counter : w.generation = .ofNat (bumps h)

private theorem bumps_cons_self : bumps (⟨now, .call (.bumpGeneration n)⟩ :: h) = bumps h + 1 :=
  List.countP_cons_of_pos rfl

private theorem bumps_cons_of_not (not : isBump t = false) : bumps (t :: h) = bumps h :=
  List.countP_cons_of_neg (by simp [not])

private theorem isBumpOf_of_not (not : isBump t = false) : isBumpOf n t = false := by
  obtain ⟨now, activity⟩ := t
  cases activity with
  | cleanup => rfl
  | call op =>
    cases op with
    | bumpGeneration m => cases not
    | get | put | generation => rfl

private theorem lastBump_cons_of_not (not : isBumpOf n t = false) :
    lastBump n (t :: h) = lastBump n h := by
  rw [lastBump, not, if_neg Bool.false_ne_true]

private theorem lastBump_cons_self :
    lastBump n (⟨now, .call (.bumpGeneration n)⟩ :: h) = some ⟨now, bumps h + 1⟩ := by
  rw [lastBump, isBumpOf, if_pos (beq_self_eq_true _)]

/-- A tick at which nothing is written. -/
theorem Mirrors.idle {w' : World} (mirrors : Mirrors blake3 M h w) (ordered : Ordered (t :: h))
    (puts : ∀ k, t.putOn k = none) (not : isBump t = false)
    (generation : w'.generation = w.generation)
    (hl : ∀ key, w'.cache.lookup key = find M.config.ttl t.now w.cache key) :
    Mirrors blake3 M (t :: h) w' where
  values k := by
    rw [LocalBackend.lastPut_cons_none (puts k)]
    exact (mirrors.values k).age ordered (hl _)
  records n := by
    rw [lastBump_cons_of_not (isBumpOf_of_not not)]
    exact (mirrors.records n).age ordered (hl _)
  counter := by rw [generation, bumps_cons_of_not not, mirrors.counter]

theorem Mirrors.put {value : Bytes} {own : Duration} (mirrors : Mirrors blake3 M h w)
    (ordered : Ordered (⟨now, .call (.put key value own)⟩ :: h)) :
    Mirrors blake3 M (⟨now, .call (.put key value own)⟩ :: h)
      (serve blake3 M (.put key value own) now w).2 := by
  obtain ⟨generation, self, others⟩ := serve_put blake3 M key value own now w
  refine ⟨fun k => ?_, fun n => ?_, ?_⟩
  · by_cases same : k = key
    · subst same
      have put : (⟨now, .call (.put k value own)⟩ : Tick).putOn k = some ⟨now, value, own⟩ :=
        if_pos rfl
      rw [LocalBackend.lastPut_cons_some put]
      exact holds_inserted self
    · have put : (⟨now, .call (.put key value own)⟩ : Tick).putOn k = none := if_neg (Ne.symm same)
      rw [LocalBackend.lastPut_cons_none put]
      exact (mirrors.values k).age ordered (others _ fun h => same (entryKey_inj h))
  · rw [lastBump_cons_of_not rfl]
    exact (mirrors.records n).age ordered (others _ (entryKey_ne_generationKey key n).symm)
  · rw [generation, bumps_cons_of_not rfl, mirrors.counter]

/-- Below the end of the counter its next value is the sum. -/
theorem saturatingAdd_ofNat {count : Nat} (few : count + 1 < 2 ^ 64) :
    saturatingAdd (.ofNat count) 1 = .ofNat (count + 1) := by
  apply UInt64.toNat_inj.mp
  have small : count < UInt64.size := Nat.lt_trans (Nat.lt_succ_self _) few
  have one : (1 : UInt64).toNat = 1 := rfl
  rw [toNat_saturatingAdd, UInt64.toNat_ofNat_of_lt' small, UInt64.toNat_ofNat_of_lt' few, one]
  exact Nat.min_eq_left (Nat.le_sub_one_of_lt few)

theorem Mirrors.bump (hash : Function.Injective blake3) (mirrors : Mirrors blake3 M h w)
    (ordered : Ordered (⟨now, .call (.bumpGeneration n)⟩ :: h)) (few : bumps h + 1 < 2 ^ 64) :
    Mirrors blake3 M (⟨now, .call (.bumpGeneration n)⟩ :: h)
      (serve blake3 M (.bumpGeneration n) now w).2 := by
  obtain ⟨-, generation, self, others⟩ := serve_bump blake3 M n now w
  refine ⟨fun k => ?_, fun m => ?_, ?_⟩
  · rw [LocalBackend.lastPut_cons_none rfl]
    exact (mirrors.values k).age ordered (others _ (entryKey_ne_generationKey k n))
  · by_cases same : m = n
    · subst same
      rw [mirrors.counter, saturatingAdd_ofNat few] at self
      rw [lastBump_cons_self]
      exact holds_inserted self
    · have other : isBumpOf m ⟨now, .call (.bumpGeneration n)⟩ = false := by
        simp [isBumpOf, Ne.symm same]
      rw [lastBump_cons_of_not other]
      exact (mirrors.records m).age ordered (others _ fun h => same (generationKey_inj hash h))
  · rw [generation, bumps_cons_self, mirrors.counter, UInt64.ofNat_add]
    rfl

/-- Moka mirrors the history. -/
theorem mirrors_ran (hash : Function.Injective blake3) (c : Comparable blake3 config M h) :
    Mirrors blake3 M h (ran blake3 M h) := by
  induction h with
  | nil => exact ⟨fun k now _ => rfl, fun n now _ => rfl, rfl⟩
  | cons t earlier ih =>
    have mirrors := ih (c.suffix (List.suffix_cons _ _))
    have ordered := c.ordered
    obtain ⟨now, activity⟩ := t
    cases activity with
    | cleanup =>
      refine ⟨fun k => ?_, fun n => ?_, ?_⟩
      · rw [LocalBackend.lastPut_cons_none rfl]
        exact (mirrors.values k).wait
      · rw [lastBump_cons_of_not rfl]
        exact (mirrors.records n).wait
      · rw [bumps_cons_of_not rfl]
        exact mirrors.counter
    | call op =>
      cases op with
      | get k =>
        obtain ⟨-, generation, hl⟩ := serve_get blake3 M k now (ran blake3 M earlier)
        exact mirrors.idle ordered (fun _ => rfl) rfl generation hl
      | generation n =>
        obtain ⟨-, generation, hl⟩ := serve_generation blake3 M n now (ran blake3 M earlier)
        exact mirrors.idle ordered (fun _ => rfl) rfl generation hl
      | put k value own => exact mirrors.put ordered
      | bumpGeneration n =>
        have few := c.few
        rw [bumps_cons_self] at few
        exact mirrors.bump hash ordered few

/-! ### What the two backends answer -/

private theorem bumpsOf_le (n : String) (h : List Tick) : bumpsOf n h ≤ bumps h := by
  refine List.countP_mono_left fun t _ such => ?_
  by_contra not
  rw [isBumpOf_of_not (by simpa using not)] at such
  cases such

private theorem bumpsOf_cons_self :
    bumpsOf n (⟨now, .call (.bumpGeneration n)⟩ :: h) = bumpsOf n h + 1 :=
  List.countP_cons_of_pos (beq_self_eq_true _)

private theorem bumpsOf_cons_of_not (not : isBumpOf n t = false) : bumpsOf n (t :: h) = bumpsOf n h :=
  List.countP_cons_of_neg (by simp [not])

private theorem bumpsOf_of_lastBump_none (none : lastBump n h = none) : bumpsOf n h = 0 := by
  induction h with
  | nil => rfl
  | cons t earlier ih =>
    cases hb : isBumpOf n t with
    | true =>
      rw [lastBump, hb, if_pos rfl] at none
      cases none
    | false =>
      rw [lastBump_cons_of_not hb] at none
      rw [bumpsOf_cons_of_not hb, ih none]

private theorem number_of_lastBump {b : Bump} (last : lastBump n h = some b) :
    b.number ≤ bumps h ∧ 0 < bumpsOf n h := by
  induction h with
  | nil => cases last
  | cons t earlier ih =>
    cases hb : isBumpOf n t with
    | true =>
      rw [lastBump, hb, if_pos rfl] at last
      cases last
      obtain ⟨now, activity⟩ := t
      obtain rfl : activity = .call (.bumpGeneration n) := eq_of_beq hb
      rw [bumps_cons_self, bumpsOf_cons_self]
      exact ⟨Nat.le_refl _, Nat.succ_pos _⟩
    | false =>
      rw [lastBump_cons_of_not hb] at last
      obtain ⟨number, some⟩ := ih last
      rw [bumpsOf_cons_of_not hb]
      exact ⟨number.trans (List.sublist_cons_self _ _).countP_le, some⟩

private theorem readGeneration_apply (b : LocalBackend) :
    (t.apply blake3 b).readGeneration n =
      if isBumpOf n t then b.readGeneration n + 1 else b.readGeneration n := by
  obtain ⟨now, activity⟩ := t
  cases activity with
  | cleanup => rfl
  | call op =>
    cases op with
    | get key =>
      exact congrArg (fun m : DashMap String UInt64 => (m.lookup n).getD 0)
        (LocalBackend.get_generations b key now)
    | generation m => rfl
    | put key value own =>
      exact congrArg (fun m : DashMap String UInt64 => (m.lookup n).getD 0)
        (LocalBackend.evictIfNeeded_generations now b)
    | bumpGeneration m =>
      have counters := LocalBackend.evictIfNeeded_generations now (b.bump m).2
      have read : ((⟨now, .call (.bumpGeneration m)⟩ : Tick).apply blake3 b).readGeneration n =
          (b.bump m).2.readGeneration n :=
        congrArg (fun m : DashMap String UInt64 => (m.lookup n).getD 0) counters
      rw [read]
      by_cases same : m = n
      · subst same
        rw [isBumpOf, if_pos (beq_self_eq_true _)]
        simp [LocalBackend.bump, LocalBackend.readGeneration]
      · rw [if_neg (by simp [isBumpOf, same])]
        simp [LocalBackend.bump, LocalBackend.readGeneration, AList.lookup_insert_ne (Ne.symm same)]

/-- The local backend counts the bumps of every namespace by itself. -/
theorem readGeneration_after : (after blake3 config h).readGeneration n = .ofNat (bumpsOf n h) := by
  induction h with
  | nil => rfl
  | cons t earlier ih =>
    rw [after, readGeneration_apply, ih]
    cases hb : isBumpOf n t with
    | false => rw [bumpsOf_cons_of_not hb, if_neg Bool.false_ne_true]
    | true =>
      rw [if_pos rfl, bumpsOf, bumpsOf, List.countP_cons_of_pos hb, UInt64.ofNat_add]
      rfl

theorem Comparable.allLive (c : Comparable blake3 config M h)
    (short : M.config.ttl.asMillis < 2 ^ 63) : AllLive h := by
  intro t ht key value own put
  have within := c.ttls t ht
  rw [put] at within
  obtain ⟨long, le⟩ := within
  exact ⟨long, Nat.lt_of_le_of_lt (Nat.div_le_div_right le) short⟩

private theorem mem_of_lastPut {p : Put} (last : lastPut k h = some p) :
    ⟨p.time, .call (.put k p.value p.ttl)⟩ ∈ h := by
  induction h with
  | nil => cases last
  | cons t earlier ih =>
    cases put : t.putOn k with
    | some q =>
      rw [LocalBackend.lastPut_cons_some put] at last
      cases last
      rw [← LocalBackend.Tick.activity_of_putOn put]
      exact List.mem_cons_self
    | none =>
      rw [LocalBackend.lastPut_cons_none put] at last
      exact List.mem_cons_of_mem _ (ih last)

private theorem local_get (c : Comparable blake3 config M (⟨now, .call (.get k)⟩ :: h))
    (short : M.config.ttl.asMillis < 2 ^ 63) :
    LocalBackend.answer blake3 config h (.get k) now =
      .ok (((lastPut k h).filter fun p => decide (now.toNat < p.deadline)).map Put.value) := by
  have earlier := c.suffix (List.suffix_cons _ _)
  have live := earlier.allLive short
  cases answered : LocalBackend.answer blake3 config h (.get k) now with
  | error e =>
    rw [LocalBackend.answer_get] at answered
    cases answered
  | ok found =>
    cases found with
    | some value =>
      obtain ⟨p, last, rfl, early⟩ := LocalBackend.put_of_answer live answered
      have before := lt_of_lt_of_le early (Nat.min_le_left _ _)
      simp [last, before]
    | none =>
      cases last : lastPut k h with
      | none => rfl
      | some p =>
        have clock := UInt64.lt_iff_toNat_lt.mp (c.clock _ List.mem_cons_self)
        have past : ¬ now.toNat < p.deadline := by
          intro before
          have found := LocalBackend.answer_of_put c.ordered live earlier.room last
            (lt_min before clock)
          rw [answered] at found
          cases found
        simp [Nat.not_lt.mp past]

private theorem live_iff (stored : Stored) : stored.Live ttl now ↔ ¬ Over ttl stored.insertedAt now :=
  Nat.not_le.symm

private theorem moka_get (hash : Function.Injective blake3)
    (c : Comparable blake3 config M (⟨now, .call (.get k)⟩ :: h)) :
    answer blake3 M h (.get k) now =
      .ok (((lastPut k h).filter fun p => decide (¬ Over M.config.ttl p.time now)).map Put.value) := by
  have earlier := c.suffix (List.suffix_cons _ _)
  have holds := (mirrors_ran hash earlier).values k now (List.pairwise_cons.mp c.ordered).1
  rw [answer, (serve_get blake3 M k now _).1, holds, Option.filter_map, Option.map_map]
  simp only [live_iff]
  rfl

/-- A value that lives in the local backend lives in moka. -/
theorem not_over_of_live {p : Put} (le : p.ttl.nanos ≤ ttl.nanos) (live : now.toNat < p.deadline) :
    ¬ Over ttl p.time now := by
  have whole : p.ttl.asMillis * 1000000 ≤ p.ttl.nanos := Nat.div_mul_le_self _ _
  rw [Put.deadline] at live
  rw [Over]
  omega

private theorem agrees_get (hash : Function.Injective blake3) (short : M.config.ttl.asMillis < 2 ^ 63)
    (c : Comparable blake3 config M (⟨now, .call (.get k)⟩ :: h)) :
    LocalBackend.answer blake3 config h (.get k) now = answer blake3 M h (.get k) now ↔
      Agrees M.config.ttl h now (.get k) := by
  rw [local_get c short, moka_get hash c, Except.ok.injEq, Agrees]
  cases last : lastPut k h with
  | none => simp
  | some p =>
    have put := List.mem_cons_of_mem (⟨now, .call (.get k)⟩ : Tick) (mem_of_lastPut last)
    have both (live : now.toNat < p.deadline) : ¬ Over M.config.ttl p.time now :=
      not_over_of_live (c.ttls _ put).2 live
    by_cases live : now.toNat < p.deadline
    · simp [Option.filter_some, live, both live]
    · by_cases past : Over M.config.ttl p.time now
      · simp [Option.filter_some, live, past]
      · simp [Option.filter_some, live, past]

private theorem ofNat_eq_iff {a b : Nat} (ha : a < 2 ^ 64) (hb : b < 2 ^ 64) :
    UInt64.ofNat a = .ofNat b ↔ a = b := by
  rw [← UInt64.toNat_inj, UInt64.toNat_ofNat_of_lt' ha, UInt64.toNat_ofNat_of_lt' hb]

private theorem moka_generation (hash : Function.Injective blake3)
    (c : Comparable blake3 config M (⟨now, .call (.generation n)⟩ :: h)) :
    answer blake3 M h (.generation n) now =
      .ok ((((lastBump n h).filter fun b => decide (¬ Over M.config.ttl b.time now)).map
        fun b => .ofNat b.number).getD 0) := by
  have earlier := c.suffix (List.suffix_cons _ _)
  have holds := (mirrors_ran hash earlier).records n now (List.pairwise_cons.mp c.ordered).1
  rw [answer, (serve_generation blake3 M n now _).1, holds]
  cases last : lastBump n h with
  | none => rfl
  | some b =>
    have record : ofRecord b.record.value = some (.ofNat b.number) := ofRecord_toLeBytes _
    have live : b.record.Live M.config.ttl now ↔ ¬ Over M.config.ttl b.time now := live_iff _
    by_cases past : Over M.config.ttl b.time now
    · simp [Option.filter_some, live, past]
    · simp [Option.filter_some, live, past, record]

private theorem agrees_generation (hash : Function.Injective blake3)
    (c : Comparable blake3 config M (⟨now, .call (.generation n)⟩ :: h)) :
    LocalBackend.answer blake3 config h (.generation n) now =
      answer blake3 M h (.generation n) now ↔ Agrees M.config.ttl h now (.generation n) := by
  have few : bumps h < 2 ^ 64 := c.few
  have own := bumpsOf_le n h
  have counted : LocalBackend.answer blake3 config h (.generation n) now =
      .ok (.ofNat (bumpsOf n h)) :=
    congrArg Except.ok readGeneration_after
  rw [counted, moka_generation hash c, Except.ok.injEq, Agrees]
  cases last : lastBump n h with
  | none => simp [bumpsOf_of_lastBump_none last]
  | some b =>
    obtain ⟨number, some⟩ := number_of_lastBump last
    by_cases past : Over M.config.ttl b.time now
    · have zero : (UInt64.ofNat (bumpsOf n h)) ≠ .ofNat 0 := by
        rw [Ne, ofNat_eq_iff (by omega) (by omega)]
        exact Nat.ne_of_gt some
      simpa [Option.filter_some, past] using zero
    · have same := ofNat_eq_iff (a := bumpsOf n h) (b := b.number) (by omega) (by omega)
      simp [Option.filter_some, past, same, eq_comm]

private theorem agrees_bump (hash : Function.Injective blake3)
    (c : Comparable blake3 config M (⟨now, .call (.bumpGeneration n)⟩ :: h)) :
    LocalBackend.answer blake3 config h (.bumpGeneration n) now =
      answer blake3 M h (.bumpGeneration n) now ↔ Agrees M.config.ttl h now (.bumpGeneration n) := by
  have few := c.few
  rw [bumps_cons_self] at few
  have own := bumpsOf_le n h
  have counter := (mirrors_ran hash (c.suffix (List.suffix_cons _ _))).counter
  have counted : LocalBackend.answer blake3 config h (.bumpGeneration n) now =
      .ok (saturatingAdd ((after blake3 config h).readGeneration n) 1) := rfl
  rw [counted, readGeneration_after, answer, (serve_bump blake3 M n now _).1, counter,
    saturatingAdd_ofNat few, saturatingAdd_ofNat (by omega), Except.ok.injEq,
    ofNat_eq_iff (by omega) few, Agrees]
  omega

/-- In every timed sequence of calls that reaches no capacity, the two backends answer a call alike
exactly if the value that is read lives in both or in none, and the generation that is read or
bumped counts the bumps of its own namespace only. -/
theorem backends_interchangeable (hash : Function.Injective blake3)
    (short : M.config.ttl.asMillis < 2 ^ 63) (c : Comparable blake3 config M h) {op : BackendOp}
    (call : ⟨now, .call op⟩ :: s <:+ h) :
    LocalBackend.answer blake3 config s op now = answer blake3 M s op now ↔
      Agrees M.config.ttl s now op := by
  have c := c.suffix call
  cases op with
  | get k => exact agrees_get hash short c
  | put k value own => exact iff_of_true rfl trivial
  | generation n => exact agrees_generation hash c
  | bumpGeneration n => exact agrees_bump hash c

end
open RbatisCache.Sample (hash)

/-- A backend whose values live for 300 seconds. -/
def sample : MokaCacheBackend := ⟨"app", {}⟩

private theorem comparable_pair {t s : Tick} (ordered : s.now ≤ t.now) (clock : t.now < u64Max)
    (later : Within sample.config.ttl t.activity) (earlier : Within sample.config.ttl s.activity) :
    Comparable hash {} sample [t, s] where
  ordered := List.pairwise_pair.mpr ordered
  clock r hr := by
    obtain rfl | hr := List.mem_cons.mp hr
    · exact clock
    · obtain rfl := List.mem_singleton.mp hr
      exact UInt64.lt_of_le_of_lt ordered clock
  room := LocalBackend.neverFull_of_unbounded rfl
  few := Nat.lt_of_le_of_lt List.countP_le_length (show 2 < 2 ^ 64 by decide)
  ttls r hr := by
    obtain rfl | hr := List.mem_cons.mp hr
    · exact later
    · obtain rfl := List.mem_singleton.mp hr
      exact earlier

/-- A value is read while it lives. -/
theorem value_read_alike :
    LocalBackend.answer hash {} [⟨0, .call (.put "k" [7] (.fromSecs 1))⟩] (.get "k") 9 =
      answer hash sample [⟨0, .call (.put "k" [7] (.fromSecs 1))⟩] (.get "k") 9 := by
  have c : Comparable hash {} sample
      [⟨9, .call (.get "k")⟩, ⟨0, .call (.put "k" [7] (.fromSecs 1))⟩] :=
    comparable_pair (by decide) (by decide) (by decide) (by decide)
  refine (backends_interchangeable Sample.hash_injective (by decide) c (List.suffix_refl _)).mpr ?_
  intro p last
  cases last
  exact .inl (by decide)

/-- In moka the bump of one namespace counts for another one, a value outlives its own time to live,
and a generation is forgotten. -/
theorem backends_differ :
    (Comparable hash {} sample
        [⟨1, .call (.bumpGeneration "b")⟩, ⟨0, .call (.bumpGeneration "a")⟩] ∧
      LocalBackend.answer hash {} [⟨0, .call (.bumpGeneration "a")⟩] (.bumpGeneration "b") 1 = .ok 1 ∧
      answer hash sample [⟨0, .call (.bumpGeneration "a")⟩] (.bumpGeneration "b") 1 = .ok 2) ∧
    (Comparable hash {} sample
        [⟨2000, .call (.get "k")⟩, ⟨0, .call (.put "k" [7] (.fromSecs 1))⟩] ∧
      LocalBackend.answer hash {} [⟨0, .call (.put "k" [7] (.fromSecs 1))⟩] (.get "k") 2000 =
        .ok none ∧
      answer hash sample [⟨0, .call (.put "k" [7] (.fromSecs 1))⟩] (.get "k") 2000 =
        .ok (some [7])) ∧
    (Comparable hash {} sample
        [⟨300000, .call (.generation "a")⟩, ⟨0, .call (.bumpGeneration "a")⟩] ∧
      LocalBackend.answer hash {} [⟨0, .call (.bumpGeneration "a")⟩] (.generation "a") 300000 =
        .ok 1 ∧
      answer hash sample [⟨0, .call (.bumpGeneration "a")⟩] (.generation "a") 300000 = .ok 0) := by
  refine ⟨⟨?_, ?_⟩, ⟨?_, ?_⟩, ⟨?_, ?_⟩⟩
  · exact comparable_pair (by decide) (by decide) (by decide) (by decide)
  · decide +kernel
  · exact comparable_pair (by decide) (by decide) (by decide) (by decide)
  · decide +kernel
  · exact comparable_pair (by decide) (by decide) (by decide) (by decide)
  · decide +kernel

end RbatisCache.Moka
