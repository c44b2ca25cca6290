import RbatisCache.RbatisInterceptor.L1Cache

/-! Several executors on one L1 cache, their calls one after the other. An executor has one slot and
the limit is on the slots of all, so executors and digests displace each other. -/
namespace RbatisCache.L1Cache
variable {V : Type}

/-- `L1Cache::get`. -/
def get (c : L1Cache V) (executorId : Int) (_digest : String) (now : Instant) : Option V × L1Cache V :=
  match c.lookup executorId now with
  | .absent => (none, c)
  | .expired => (none, c.remove executorId)
  | .live value => (some value, c)

/-- `L1Cache::put`. -/
def put (c : L1Cache V) (executorId : Int) (_digest : String) (value : V) (now : Instant) : L1Cache V :=
  let entry : L1Entry V := ⟨value, now + c.ttl.nanos⟩
  let (replaced, c) := c.replace executorId entry
  if replaced then c
  else match c.oldest with
    | some oldest => (c.remove oldest).insert executorId entry
    | none => c.insert executorId entry

inductive Action (V : Type) where
  | get (digest : String)
  | put (digest : String) (value : V)
  /-- `clear_for_executor`. -/
  | clear

structure Call (V : Type) where
  now : Instant
  executorId : Int
  action : Action V

def Call.apply (t : Call V) (c : L1Cache V) : L1Cache V :=
  match t.action with
  | .get digest => (c.get t.executorId digest t.now).2
  | .put digest value => c.put t.executorId digest value t.now
  | .clear => c.remove t.executorId

/-- The cache after some calls, the latest of which comes first. -/
def after (maxEntries : Nat) (ttl : Duration) : List (Call V) → L1Cache V
  | [] => .new maxEntries ttl
  | t :: earlier => t.apply (after maxEntries ttl earlier)

def Ordered (h : List (Call V)) : Prop := h.Pairwise fun later earlier => earlier.now ≤ later.now

/-- A digest with what was put last under it. -/
structure Filed (V : Type) where
  digest : String
  value : V
  time : Instant
  deriving DecidableEq

/-- The distinct digests that were put on an executor since it was cleared, the last one first. -/
def recents (e : Int) : List (Call V) → List (Filed V)
  | [] => []
  | ⟨now, executorId, action⟩ :: earlier =>
    if executorId = e then
      match action with
      | .get _ => recents e earlier
      | .put digest value =>
        ⟨digest, value, now⟩ :: (recents e earlier).filter fun f => f.digest ≠ digest
      | .clear => []
    else recents e earlier

/-- What `get` returns for all other executors stays the same from now on. -/
def Undisturbed (executorId : Int) (now : Instant) (before after : L1Cache V) : Prop :=
  ∀ e, e ≠ executorId → ∀ digest time, now ≤ time →
    (after.get e digest time).1 = (before.get e digest time).1

/-- All slots are taken, by living entries of other executors. -/
def Crowded (c : L1Cache V) (executorId : Int) (now : Instant) : Prop :=
  executorId ∉ c.entries ∧ c.maxEntries ≤ c.entries.len ∧
    ∀ e entry, c.entries.lookup e = some entry → now < entry.expiresAt

/-- A `put` finds a slot of its own, an empty or an expired one, and in it no living entry of another
digest, unless an executor is to hold one digest only. -/
def Call.Spacious (t : Call V) (earlier : List (Call V)) (c : L1Cache V) : Prop :=
  ∀ digest value, t.action = .put digest value → ¬ c.Crowded t.executorId t.now ∧
    (c.maxEntries ≤ 1 ∨ (∀ entry, c.entries.lookup t.executorId = some entry → entry.expiresAt ≤ t.now) ∨
      ∀ f ∈ (recents t.executorId earlier).head?, f.digest = digest)

/-- All calls meet the condition. -/
def AllSpacious (maxEntries : Nat) (ttl : Duration) (h : List (Call V)) : Prop :=
  ∀ t earlier, t :: earlier <:+ h → t.Spacious earlier (after maxEntries ttl earlier)

section
variable {c : L1Cache V} {e executorId : Int} {digest : String} {value : V} {now time : Instant}
variable {maxEntries : Nat} {ttl : Duration} {h earlier : List (Call V)} {t : Call V}

/-! ### One call -/

private theorem get_eq (c : L1Cache V) (e : Int) (digest : String) (time : Instant) :
    (c.get e digest time).1 =
      (c.entries.lookup e).bind fun entry => if entry.expiresAt ≤ time then none else some entry.value := by
  unfold get lookup
  cases c.entries.lookup e with
  | none => rfl
  | some entry =>
    by_cases past : entry.expiresAt ≤ time
    · simp [past]
    · simp [past]

/-- All that a `put` can do. -/
inductive Filled (c : L1Cache V) (executorId : Int) (digest : String) (value : V) (now : Instant) : Prop
  | overwritten (present : executorId ∈ c.entries) (result : c.put executorId digest value now =
      { c with entries := c.entries.replace executorId ⟨value, now + c.ttl.nanos⟩ })
  | added (absent : executorId ∉ c.entries) (room : c.oldest = none)
    (result : c.put executorId digest value now = c.insert executorId ⟨value, now + c.ttl.nanos⟩)
  | displaced (absent : executorId ∉ c.entries) {loser : Int} (full : c.oldest = some loser)
    (result : c.put executorId digest value now =
      (c.remove loser).insert executorId ⟨value, now + c.ttl.nanos⟩)

private theorem filled (c : L1Cache V) (executorId : Int) (digest : String) (value : V)
    (now : Instant) :
    Filled c executorId digest value now := by
  by_cases present : executorId ∈ c.entries
  · refine .overwritten present ?_
    rw [put, replace, if_pos present]
    rfl
  · cases full : c.oldest with
    | none =>
      refine .added present full ?_
      rw [put, replace, if_neg present]
      dsimp only
      rw [full]
      rfl
    | some oldest =>
      refine .displaced present full ?_
      rw [put, replace, if_neg present]
      dsimp only
      rw [full]
      rfl

/-- The slot that gives way is the one that expires first. -/
theorem oldest_spec {loser : Int} (full : c.oldest = some loser) :
    c.maxEntries ≤ c.entries.len ∧ ∃ entry, c.entries.lookup loser = some entry ∧
      ∀ e other, c.entries.lookup e = some other → entry.expiresAt ≤ other.expiresAt := by
  unfold oldest at full
  split at full
  · next crowded => exact ⟨crowded, DashMap.minByKey_spec full⟩
  · cases full

private theorem mem_of_lookup {entry : L1Entry V} (found : c.entries.lookup e = some entry) :
    e ∈ c.entries :=
  AList.lookup_isSome.mp (Option.isSome_iff_exists.mpr ⟨entry, found⟩)

/-- A `put` leaves the other executors alone unless it finds all slots taken. -/
theorem undisturbed_put_iff (positive : 1 ≤ c.maxEntries) (executorId : Int) (digest : String)
    (value : V) (now : Instant) :
    Undisturbed executorId now c (c.put executorId digest value now) ↔ ¬ c.Crowded executorId now := by
  constructor
  · rintro undisturbed ⟨absent, taken, living⟩
    cases filled c executorId digest value now with
    | overwritten present => exact absent present
    | added _ room =>
      unfold oldest at room
      rw [if_pos taken] at room
      have empty := DashMap.minByKey_eq_none.mp room
      omega
    | @displaced _ loser full result =>
      obtain ⟨_, entry, found, _⟩ := oldest_spec full
      have other : loser ≠ executorId := by
        rintro rfl
        exact absent (mem_of_lookup found)
      have same := undisturbed loser other digest now (Nat.le_refl _)
      have alive : ¬ entry.expiresAt ≤ now := Nat.not_le.mpr (living loser entry found)
      rw [get_eq, get_eq, found, Option.bind_some, if_neg alive, result, insert,
        AList.lookup_insert_ne other, remove, AList.lookup_erase, Option.bind_none] at same
      cases same
  · intro free e other digest' time le
    rw [get_eq, get_eq]
    cases filled c executorId digest value now with
    | overwritten present result =>
      rw [result, DashMap.lookup_replace]
      simp only [if_neg other, Option.map_id']
    | added _ _ result => rw [result, insert, AList.lookup_insert_ne other]
    | @displaced absent loser full result =>
      rw [result, insert, AList.lookup_insert_ne other, remove]
      by_cases gone : e = loser
      · subst gone
        obtain ⟨taken, entry, found, first⟩ := oldest_spec full
        have past : entry.expiresAt ≤ now := by
          by_contra late
          refine free ⟨absent, taken, fun e' entry' found' => ?_⟩
          exact Nat.lt_of_lt_of_le (Nat.lt_of_not_le late) (first e' entry' found')
        rw [AList.lookup_erase, found, Option.bind_some, if_pos (past.trans le)]
        rfl
      · rw [AList.lookup_erase_ne gone]

private theorem undisturbed_remove (c : L1Cache V) (executorId : Int) (now : Instant) :
    Undisturbed executorId now c (c.remove executorId) := by
  intro e other digest time _
  rw [get_eq, get_eq, remove, AList.lookup_erase_ne other]

private theorem undisturbed_get (c : L1Cache V) (executorId : Int) (digest : String) (now : Instant) :
    Undisturbed executorId now c (c.get executorId digest now).2 := by
  unfold get
  cases c.lookup executorId now with
  | absent | live value => exact fun _ _ _ _ _ => rfl
  | expired => exact undisturbed_remove c executorId now

theorem Call.undisturbed (positive : 1 ≤ c.maxEntries) (spacious : t.Spacious earlier c) :
    Undisturbed t.executorId t.now c (t.apply c) := by
  obtain ⟨now, executorId, action⟩ := t
  cases action with
  | get digest => exact undisturbed_get c executorId digest now
  | put digest value =>
    exact (undisturbed_put_iff positive executorId digest value now).mpr (spacious digest value rfl).1
  | clear => exact undisturbed_remove c executorId now

theorem lookup_put_self (c : L1Cache V) (executorId : Int) (digest : String) (value : V) (now : Instant) :
    (c.put executorId digest value now).entries.lookup executorId =
      some ⟨value, now + c.ttl.nanos⟩ := by
  cases filled c executorId digest value now with
  | overwritten present result =>
    obtain ⟨entry, found⟩ := Option.isSome_iff_exists.mp (AList.lookup_isSome.mpr present)
    rw [result, DashMap.lookup_replace, found, Option.map_some, if_pos rfl]
  | added _ _ result | displaced _ _ result => rw [result, insert, AList.lookup_insert]

theorem Call.apply_limits (t : Call V) (c : L1Cache V) :
    (t.apply c).maxEntries = c.maxEntries ∧ (t.apply c).ttl = c.ttl := by
  obtain ⟨now, executorId, action⟩ := t
  cases action with
  | get digest =>
    change (c.get executorId digest now).2.maxEntries = _ ∧ (c.get executorId digest now).2.ttl = _
    unfold get
    cases c.lookup executorId now with
    | absent | live value | expired => exact ⟨rfl, rfl⟩
  | put digest value =>
    change (c.put executorId digest value now).maxEntries = _ ∧
      (c.put executorId digest value now).ttl = _
    cases filled c executorId digest value now with
    | overwritten _ result | added _ _ result | displaced _ _ result =>
      rw [result]
      exact ⟨rfl, rfl⟩
  | clear => exact ⟨rfl, rfl⟩

private theorem after_limits (maxEntries : Nat) (ttl : Duration) (h : List (Call V)) :
    (after maxEntries ttl h).maxEntries = max maxEntries 1 ∧ (after maxEntries ttl h).ttl = ttl := by
  induction h with
  | nil => exact ⟨rfl, rfl⟩
  | cons t earlier ih =>
    obtain ⟨limit, life⟩ := t.apply_limits (after maxEntries ttl earlier)
    exact ⟨limit.trans ih.1, life.trans ih.2⟩

/-! ### What an executor holds -/

/-- When a value that was put expires. -/
def Filed.expiresAt (ttl : Duration) (f : Filed V) : Instant := f.time + ttl.nanos

/-- The last digest of the executor is in its slot, and if executors may hold several digests, all its
others have expired. -/
structure Kept (maxEntries : Nat) (ttl : Duration) (e : Int) (h : List (Call V)) (now : Instant)
    (c : L1Cache V) : Prop where
  first : ∀ f ∈ (recents e h).head?, ∀ digest time, now ≤ time → time < f.expiresAt ttl →
    (c.get e digest time).1 = some f.value
  others : maxEntries ≤ 1 ∨ ∀ f ∈ (recents e h).tail, f.expiresAt ttl ≤ now

theorem Kept.later (kept : Kept maxEntries ttl e h now c) (le : now ≤ time) :
    Kept maxEntries ttl e h time c where
  first f hf digest _ late := kept.first f hf digest _ (le.trans late)
  others := kept.others.imp_right fun past f hf => (past f hf).trans le

private theorem recents_other (other : t.executorId ≠ e) : recents e (t :: h) = recents e h := by
  obtain ⟨now, executorId, action⟩ := t
  exact if_neg other

/-- A call of another executor. -/
theorem Kept.other (kept : Kept maxEntries ttl e h t.now c) (other : t.executorId ≠ e)
    (undisturbed : Undisturbed t.executorId t.now c (t.apply c)) :
    Kept maxEntries ttl e (t :: h) t.now (t.apply c) where
  first f hf digest time late early := by
    rw [recents_other other] at hf
    rw [undisturbed e (Ne.symm other) digest time late]
    exact kept.first f hf digest time late early
  others := by
    rw [recents_other other]
    exact kept.others

theorem Kept.get (kept : Kept maxEntries ttl e h now c) (digest : String) :
    Kept maxEntries ttl e (⟨now, e, .get digest⟩ :: h) now (c.get e digest now).2 := by
  have same : recents e (⟨now, e, .get digest⟩ :: h) = recents e h := if_pos rfl
  refine ⟨fun f hf digest' time late early => ?_, by rw [same]; exact kept.others⟩
  rw [same] at hf
  have here := kept.first f hf digest now (Nat.le_refl _) (Nat.lt_of_le_of_lt late early)
  have there := kept.first f hf digest' time late early
  unfold L1Cache.get at here
  rw [L1Cache.get.eq_1 c e digest now]
  cases hl : c.lookup e now with
  | absent | expired =>
    rw [hl] at here
    cases here
  | live value => exact there

theorem Kept.put (kept : Kept maxEntries ttl e h now c) (life : c.ttl = ttl) (digest : String) (value : V)
    (fits : maxEntries ≤ 1 ∨ (∀ entry, c.entries.lookup e = some entry → entry.expiresAt ≤ now) ∨
      ∀ f ∈ (recents e h).head?, f.digest = digest) :
    Kept maxEntries ttl e (⟨now, e, .put digest value⟩ :: h) now (c.put e digest value now) := by
  have newest : recents e (⟨now, e, .put digest value⟩ :: h) =
      ⟨digest, value, now⟩ :: (recents e h).filter fun f => f.digest ≠ digest := if_pos rfl
  constructor
  · intro f hf digest' time late early
    rw [newest, List.head?_cons, Option.mem_some_iff] at hf
    subst hf
    have alive : ¬ now + c.ttl.nanos ≤ time := by
      rw [life]
      exact Nat.not_le.mpr early
    rw [get_eq, lookup_put_self, Option.bind_some, if_neg alive]
  · refine or_iff_not_imp_left.mpr fun several f hf => ?_
    rw [newest, List.tail_cons] at hf
    obtain ⟨mem, different⟩ := List.mem_filter.mp hf
    have past := kept.others.resolve_left several
    cases hr : recents e h with
    | nil =>
      rw [hr] at mem
      cases mem
    | cons g rest =>
      rw [hr] at mem past
      rcases List.mem_cons.mp mem with rfl | old
      · rcases fits.resolve_left several with expired | same
        · by_contra living
          have held := kept.first f (by rw [hr]; rfl) digest now (Nat.le_refl _) (Nat.lt_of_not_le living)
          rw [get_eq] at held
          obtain ⟨entry, found, shown⟩ := Option.bind_eq_some_iff.mp held
          rw [if_pos (expired entry found)] at shown
          cases shown
        · have digests := same f (by rw [hr]; rfl)
          exact absurd digests (of_decide_eq_true different)
      · exact past f old

private theorem kept_of_none (none : recents e h = []) (now : Instant) (c : L1Cache V) :
    Kept maxEntries ttl e h now c := by
  constructor
  · intro f hf
    rw [none] at hf
    cases hf
  · rw [none]
    exact .inr fun f hf => by cases hf

/-! ### Over a whole sequence -/

theorem AllSpacious.tail (spacious : AllSpacious maxEntries ttl (t :: h)) :
    AllSpacious maxEntries ttl h :=
  fun s earlier hs => spacious s earlier (hs.trans (List.suffix_cons _ _))

theorem AllSpacious.cons (spacious : AllSpacious maxEntries ttl h)
    (next : t.Spacious h (after maxEntries ttl h)) : AllSpacious maxEntries ttl (t :: h) := by
  intro s earlier hs
  rcases List.suffix_cons_iff.mp hs with same | old
  · obtain ⟨rfl, rfl⟩ := List.cons.inj same
    exact next
  · exact spacious s earlier old

theorem Call.undisturbed_after (spacious : t.Spacious earlier (after maxEntries ttl earlier)) :
    Undisturbed t.executorId t.now (after maxEntries ttl earlier) (after maxEntries ttl (t :: earlier)) := by
  have positive : 1 ≤ (after maxEntries ttl earlier : L1Cache V).maxEntries := by
    rw [(after_limits maxEntries ttl earlier).1]
    exact Nat.le_max_right _ _
  exact t.undisturbed positive spacious

private theorem kept_after (ordered : Ordered h) (spacious : AllSpacious maxEntries ttl h) (e : Int)
    (reached : ∀ t ∈ h, t.now ≤ now) :
    Kept (max maxEntries 1) ttl e h now (after maxEntries ttl h) := by
  induction h generalizing now with
  | nil => exact kept_of_none rfl now _
  | cons t earlier ih =>
    obtain ⟨before, ordered⟩ := List.pairwise_cons.mp ordered
    have kept := ih ordered spacious.tail before
    have room := spacious t earlier (List.suffix_refl _)
    obtain ⟨limit, life⟩ := after_limits maxEntries ttl earlier
    refine Kept.later ?_ (reached t List.mem_cons_self)
    by_cases own : t.executorId = e
    · obtain ⟨time, executorId, action⟩ := t
      subst own
      cases action with
      | get digest => exact kept.get digest
      | put digest value =>
        have fits := (room digest value rfl).2
        rw [limit] at fits
        exact kept.put life digest value fits
      | clear =>
        have cleared : recents executorId (⟨time, executorId, .clear⟩ :: earlier) = [] := if_pos rfl
        exact kept_of_none cleared time _
    · exact kept.other own (Call.undisturbed_after room)

/-- As long as every `put` finds a slot of its own, an empty or an expired one, and in it no living
entry of another digest unless the limit is 1, no call changes what `get` returns for other executors,
and every executor holds the values of the last digests that were put on it, as many as the limit
says, each until it expires. -/
theorem executors_apart_while_spacious (ordered : Ordered h)
    (spacious : AllSpacious maxEntries ttl h) :
    (∀ t earlier, t :: earlier <:+ h → Undisturbed t.executorId t.now (after maxEntries ttl earlier)
      (after maxEntries ttl (t :: earlier))) ∧
    ∀ e, ∀ f ∈ (recents e h).take (max maxEntries 1), ∀ time, (∀ t ∈ h, t.now ≤ time) →
      time < f.expiresAt ttl → ((after maxEntries ttl h).get e f.digest time).1 = some f.value := by
  refine ⟨fun t earlier hs => Call.undisturbed_after (spacious t earlier hs), ?_⟩
  intro e f hf time reached early
  have kept := kept_after ordered spacious e reached
  cases hr : recents e h with
  | nil =>
    rw [hr] at hf
    simp at hf
  | cons g rest =>
    have position : f = g ∨ f ∈ rest := List.mem_cons.mp (hr ▸ List.mem_of_mem_take hf)
    rcases position with rfl | old
    · exact kept.first f (by rw [hr]; rfl) _ time (Nat.le_refl _) early
    · rcases kept.others with one | past
      · have single : f ∈ [g] := by
          have size : max maxEntries 1 = 1 := Nat.le_antisymm one (Nat.le_max_right _ _)
          rw [hr, size] at hf
          exact hf
        obtain rfl := List.mem_singleton.mp single
        exact kept.first f (by rw [hr]; rfl) _ time (Nat.le_refl _) early
      · have expired := past f (by rw [hr]; exact old)
        exact absurd early (Nat.not_lt.mpr expired)

end
namespace Sample

def put (now : Instant) (executorId : Int) (digest : String) (value : Nat) : Call Nat :=
  ⟨now, executorId, .put digest value⟩

end Sample

/-- Two executors keep their values apart in a cache for two. -/
theorem two_executors_apart :
    ((after 2 (.fromSecs 1) [Sample.put 6 2 "b" 8, Sample.put 5 1 "a" 7]).get 1 "a" 9).1 = some 7 := by
  have spacious : AllSpacious 2 (.fromSecs 1) [Sample.put 6 2 "b" 8, Sample.put 5 1 "a" 7] := by
    have empty : AllSpacious 2 (.fromSecs 1) ([] : List (Call Nat)) := by
      intro t earlier hs
      cases List.suffix_nil.mp hs
    refine (empty.cons ?_).cons ?_
    · rintro digest value ⟨⟩
      exact ⟨fun crowded => absurd crowded.2.1 (by decide), .inr (.inl fun entry found => by cases found)⟩
    · rintro digest value ⟨⟩
      refine ⟨fun crowded => absurd crowded.2.1 (by decide), .inr (.inl fun entry found => ?_)⟩
      have absent : (after 2 (.fromSecs 1) [Sample.put 5 1 "a" 7]).entries.lookup 2 = none := by decide
      exact absurd (absent.symm.trans found) (Option.some_ne_none entry).symm
  have ordered : Ordered [Sample.put 6 2 "b" 8, Sample.put 5 1 "a" 7] := by
    unfold Ordered
    decide
  refine (executors_apart_while_spacious ordered spacious).2 1 ⟨"a", 7, 5⟩ (by decide) 9 ?_ (by decide)
  decide

/-- In a cache for two entries of every executor, the third executor takes the slot of the first one,
and the second digest of an executor takes that of its first one. -/
theorem slots_taken_over :
    ((after 2 (.fromSecs 1) [Sample.put 6 2 "b" 8, Sample.put 5 1 "a" 7]).get 1 "a" 9).1 = some 7 ∧
    ((after 2 (.fromSecs 1)
      [Sample.put 7 3 "c" 9, Sample.put 6 2 "b" 8, Sample.put 5 1 "a" 7]).get 1 "a" 9).1 = none ∧
    ((after 2 (.fromSecs 1) [Sample.put 6 1 "b" 8, Sample.put 5 1 "a" 7]).get 1 "a" 9).1 = some 8 := by
  decide

end RbatisCache.L1Cache
