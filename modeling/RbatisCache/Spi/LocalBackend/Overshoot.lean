import Mathlib.Data.Finset.Card
import RbatisCache.Spi.LocalBackend.Overlap

/-! The capacity of the in-process backend under concurrent calls. A call makes room by a visit of all
shards, one after the other, and inserts later; the entries that it does not see are those of calls that
were running when the visit began. -/
namespace RbatisCache.LocalBackend.Concurrent
open Interleaving

/-- `entries.len()` when nothing happens meanwhile. -/
def World.size (layout : Layout) (w : World) : Nat :=
  ((List.range layout.shards).map fun shard => (w.shard shard).len).sum

def Task.writes : Task → Bool
  | .call (.put _ _ _) | .call (.bumpGeneration _) => true
  | .call (.get _) | .call (.generation _) | .prune => false

def Op.inserts (key : String) : Op → Bool
  | .entriesInsert k _ => k == key
  | _ => false

section
variable {T : Type}

/-- Nothing has been inserted under the key. -/
def untouched (later : History T) (key : String) : Bool := later.all fun e => !e.op.inserts key

/-- The keys of a shard that have been there all the time. -/
def lasting (w : World) (later : History T) (shard : Nat) : List String :=
  (w.shard shard).keys.filter (untouched later)

/-- The insertions, each with its key. -/
def insertions (h : History T) : List (T × String) :=
  h.filterMap fun e => match e.op with
    | .entriesInsert key _ => some (e.task, key)
    | _ => none

/-- A call has begun that will insert an entry, and has not inserted it yet. -/
def Filling [DecidableEq T] (tasks : T → Task) (h : History T) (t : T) : Prop :=
  (tasks t).writes = true ∧ h.own t ≠ [] ∧ NothingInserted (h.own t)

/-- What the visits of a shard have to do with its keys. -/
structure Surveyed (layout : Layout) (w : World) (h : History T) : Prop where
  placed : ∀ shard, ∀ key ∈ (w.shard shard).keys, layout.shardOf key = shard
  inserted : ∀ shard, ∀ key ∈ (w.shard shard).keys, ∃ t, (t, key) ∈ insertions h
  seen : ∀ later e earlier shard count, h = later ++ e :: earlier →
    Saw [⟨e.op, e.result⟩] shard count → (lasting w later shard).length ≤ count

variable {layout : Layout} {w u : World} {h later : History T} {t : T} {op : Op} {now : UInt64}

private theorem keys_setShard {key : String} {shard s : Nat} {m : DashMap String Entry}
    (member : key ∈ ((w.setShard s m).shard shard).keys) :
    key ∈ (w.shard shard).keys ∨ s = shard ∧ key ∈ m.keys := by
  by_cases same : shard = s
  · subst same
    exact .inr ⟨rfl, by simpa [World.setShard] using member⟩
  · exact .inl (by simpa [World.setShard, same] using member)

/-- A key that was not in a shard before has been inserted there. -/
theorem keys_act {key : String} {shard : Nat}
    (member : key ∈ ((act layout now op w).2.shard shard).keys) :
    key ∈ (w.shard shard).keys ∨ op.inserts key = true ∧ layout.shardOf key = shard := by
  have erased {k : String} (member : key ∈ ((w.setShard (layout.shardOf k)
      ((w.shard (layout.shardOf k)).erase k)).shard shard).keys) : key ∈ (w.shard shard).keys := by
    rcases keys_setShard member with old | ⟨rfl, rest⟩
    · exact old
    · exact (AList.mem_erase.mp rest).2
  cases op with
  | entriesInsert k e =>
    rcases keys_setShard member with old | ⟨rfl, new⟩
    · exact .inl old
    · rcases AList.mem_insert _ |>.mp new with rfl | old
      · exact .inr ⟨by simp [Op.inserts], rfl⟩
      · exact .inl old
  | entriesRemove k => exact .inl (erased member)
  | entriesRemoveIf k limit =>
    left
    simp only [act] at member
    split at member
    · dsimp only at member
      split at member
      · exact erased member
      · exact member
    · exact member
  | entriesTouch k =>
    left
    simp only [act, World.entriesTouch] at member
    split at member
    · rcases keys_setShard member with old | ⟨rfl, rest⟩
      · exact old
      · rwa [AList.keys_replace] at rest
    · exact member
  | shardRetain s limit =>
    rcases keys_setShard member with old | ⟨rfl, rest⟩
    · exact .inl old
    · exact .inl ((List.filter_sublist.map Sigma.fst).subset rest)
  | shardLower s least =>
    rcases keys_setShard member with old | ⟨rfl, rest⟩
    · exact .inl old
    · left
      obtain ⟨e, changed, rfl⟩ := List.mem_map.mp rest
      obtain ⟨f, found, rfl⟩ := List.mem_map.mp changed
      exact List.mem_map.mpr ⟨f, found, rfl⟩
  | generationsEntry n =>
    left
    cases w.entered n with
    | found _ result | created _ result =>
      simp only [act, result] at member
      exact member
  | _ => exact .inl member

/-- What lasts a step has lasted until then. -/
theorem lasting_cons_subset (now : UInt64) (r : op.Res) (shard : Nat) :
    lasting (act layout now op w).2 (⟨t, op, r⟩ :: later) shard ⊆ lasting w later shard := by
  intro key member
  obtain ⟨present, quiet⟩ := List.mem_filter.mp member
  obtain ⟨still, quiet⟩ := Bool.and_eq_true_iff.mp quiet
  rcases keys_act present with old | ⟨inserts, -⟩
  · exact List.mem_filter.mpr ⟨old, quiet⟩
  · dsimp only at still
    rw [inserts] at still
    cases still

private theorem nodup_lasting (w : World) (later : History T) (shard : Nat) :
    (lasting w later shard).Nodup :=
  (w.shard shard).keys_nodup.filter _

/-- A longer time is lasted by fewer keys. -/
theorem length_lasting_le (w : World) (newer : History T) (shard : Nat) :
    (lasting w (newer ++ later) shard).length ≤ (lasting w newer shard).length := by
  refine (List.subperm_of_subset (nodup_lasting _ _ _) fun key member => ?_).length_le
  obtain ⟨present, quiet⟩ := List.mem_filter.mp member
  rw [untouched, List.all_append] at quiet
  exact List.mem_filter.mpr ⟨present, (Bool.and_eq_true_iff.mp quiet).1⟩

/-- A visit sees what is there. -/
theorem length_of_saw {shard count : Nat}
    (saw : Saw [⟨op, (act layout now op w).1⟩] shard count) :
    (lasting (act layout now op w).2 ([] : History T) shard).length = count := by
  have all : lasting (act layout now op w).2 ([] : History T) shard =
      ((act layout now op w).2.shard shard).keys := List.filter_true _
  rw [all]
  rcases saw with len | ⟨entries, iter, rfl⟩
  · cases op with
    | shardLen s =>
      cases List.mem_singleton.mp len
      exact List.length_map _
    | _ => cases List.mem_singleton.mp len
  · cases op with
    | shardIter s =>
      cases List.mem_singleton.mp iter
      exact List.length_map _
    | _ => cases List.mem_singleton.mp iter

private theorem mem_insertions {key : String} :
    (t, key) ∈ insertions h ↔ ∃ e, ⟨t, .entriesInsert key e, ()⟩ ∈ h := by
  rw [insertions, List.mem_filterMap]
  constructor
  · rintro ⟨⟨s, op, r⟩, event, same⟩
    cases op with
    | entriesInsert k e =>
      cases same
      exact ⟨e, event⟩
    | _ => cases same
  · rintro ⟨e, event⟩
    exact ⟨_, event, rfl⟩

theorem Surveyed.step (surveyed : Surveyed layout w h) (t : T) (op : Op) (now : UInt64) :
    Surveyed layout (act layout now op w).2 (⟨t, op, (act layout now op w).1⟩ :: h) where
  placed shard key member := by
    rcases keys_act member with old | ⟨-, here⟩
    · exact surveyed.placed shard key old
    · exact here
  inserted shard key member := by
    rcases keys_act member with old | ⟨inserts, -⟩
    · obtain ⟨s, inserted⟩ := surveyed.inserted shard key old
      obtain ⟨e, event⟩ := mem_insertions.mp inserted
      exact ⟨s, mem_insertions.mpr ⟨e, List.mem_cons_of_mem _ event⟩⟩
    · cases op with
      | entriesInsert k e =>
        obtain rfl : k = key := by simpa [Op.inserts] using inserts
        exact ⟨t, mem_insertions.mpr ⟨e, List.mem_cons_self⟩⟩
      | _ => cases inserts
  seen later e earlier shard count split saw := by
    cases later with
    | nil =>
      obtain ⟨rfl, rfl⟩ := List.cons.inj split
      exact (length_of_saw saw).le
    | cons first later =>
      obtain ⟨rfl, rfl⟩ := List.cons.inj split
      have fewer : lasting (act layout now op w).2 (⟨t, op, (act layout now op w).1⟩ :: later) shard ⊆
          lasting w later shard := lasting_cons_subset now _ shard
      have shorter := List.subperm_of_subset (nodup_lasting _ _ _) fewer
      exact shorter.length_le.trans (surveyed.seen later e earlier shard count rfl saw)

end

/-! ### Who is running when a visit begins -/

section
variable {T : Type} [DecidableEq T] {blake3 : Bytes → String} {layout : Layout}
variable {config : LocalBackendConfig} {rounds : Nat} {tasks : T → Task} {w : World}
variable {h g later : History T} {t : T} {key : String} {max k : Nat}

theorem Task.Inserts.writes {task : Task} {done : Done} {e : Entry}
    (inserts : task.Inserts blake3 done key e) : task.writes = true := by
  cases inserts with
  | put | bump => rfl

/-- A call inserts once. -/
theorem nodup_insertions
    (lawful : Lawful (fun t => entriesRule blake3 layout config (tasks t)) h) :
    ((insertions h).map Prod.fst).Nodup := by
  induction h with
  | nil => exact List.nodup_nil
  | cons e h ih =>
    obtain ⟨t, op, r⟩ := e
    have rest := ih (lawful.suffix (List.suffix_cons _ _))
    cases op with
    | entriesInsert key e =>
      obtain ⟨-, nothing, -⟩ := lawful _ _ (List.suffix_refl _)
      refine List.nodup_cons.mpr ⟨fun again => ?_, rest⟩
      obtain ⟨⟨s, key'⟩, inserted, rfl⟩ := List.mem_map.mp again
      obtain ⟨e', event⟩ := mem_insertions.mp inserted
      exact nothing key' e' (History.mem_own.mpr event)
    | _ => exact rest

/-- A visit that found room began at this moment, and its call was running. -/
structure Began (layout : Layout) (max : Nat) (tasks : T → Task) (w : World) (h : History T) (t : T)
    (later g : History T) : Prop where
  split : h = later ++ g
  filling : Filling tasks g t
  room : ((List.range layout.shards).map fun shard => (lasting w later shard).length).sum <
    Nat.max max 1

private theorem sum_lasting_le {scan : Done} {newer : History T} {shards counts : List Nat}
    (surveyed : Surveyed layout w h) (split : h = newer ++ (later ++ g))
    (events : ∀ e ∈ scan, e ∈ later.own t) (seen : List.Forall₂ (Saw scan) shards counts) :
    (shards.map fun shard => (lasting w (newer ++ later) shard).length).sum ≤ counts.sum := by
  have shorter {op : Op} {r : op.Res} {shard count : Nat} (event : ⟨op, r⟩ ∈ scan)
      (saw : Saw [⟨op, r⟩] shard count) : (lasting w (newer ++ later) shard).length ≤ count := by
    obtain ⟨front, back, rfl⟩ := List.append_of_mem (History.mem_own.mp (events _ event))
    have le := surveyed.seen (newer ++ front) ⟨t, op, r⟩ (back ++ g) shard count
      (by rw [split]; simp) saw
    rw [show newer ++ (front ++ ⟨t, op, r⟩ :: back) = newer ++ front ++ ⟨t, op, r⟩ :: back by simp]
    exact (length_lasting_le w (newer ++ front) shard).trans le
  induction seen with
  | nil => exact Nat.le_refl 0
  | @cons shard count shards counts saw _ ih =>
    rw [List.map_cons, List.sum_cons, List.sum_cons]
    refine Nat.add_le_add ?_ ih
    rcases saw with len | ⟨entries, iter, same⟩
    · exact shorter len (.inl (List.mem_singleton_self _))
    · exact shorter iter (.inr ⟨entries, List.mem_singleton_self _, same⟩)

/-- Every insertion follows on such a visit. -/
theorem exists_began (lawful : Lawful (fun t => entriesRule blake3 layout config (tasks t)) h)
    (surveyed : Surveyed layout w h) (turning : h.Always fun e _ => e.op ≠ .spin)
    (limited : config.maxEntries = some max) (inserted : (t, key) ∈ insertions h) :
    ∃ later g, Began layout max tasks w h t later g := by
  obtain ⟨e, event⟩ := mem_insertions.mp inserted
  obtain ⟨s, hs⟩ := History.exists_suffix_of_mem event
  obtain ⟨inserts, nothing, room⟩ := lawful _ _ hs
  rcases room max limited with spun | ⟨total, rest, begun, ⟨scan, counts, own, seen, sum⟩, small⟩
  · obtain ⟨q, hq⟩ := History.exists_suffix_of_mem_own spun
    exact absurd rfl (turning _ _ (hq.trans ((List.suffix_cons _ _).trans hs)))
  · obtain ⟨later, g, rfl, scanned, rested⟩ := History.exists_append_of_own own
    obtain ⟨newer, rfl⟩ := (List.suffix_cons _ _).trans hs
    refine ⟨newer ++ later, g, (List.append_assoc _ _ _).symm, ⟨inserts.writes, ?_, ?_⟩, ?_⟩
    · rwa [rested]
    · intro k f member
      refine nothing k f ?_
      rw [History.own_append]
      exact List.mem_append_right _ member
    · refine Nat.lt_of_le_of_lt (sum_lasting_le (t := t) surveyed rfl (fun e member => ?_) seen) ?_
      · rwa [scanned]
      · rwa [sum]

/-- The visit that began last. -/
theorem exists_last_began (lawful : Lawful (fun t => entriesRule blake3 layout config (tasks t)) h)
    (surveyed : Surveyed layout w h) (turning : h.Always fun e _ => e.op ≠ .spin)
    (limited : config.maxEntries = some max) (inserted : (t, key) ∈ insertions h) :
    ∃ u later g, u ∈ (insertions h).map Prod.fst ∧ Began layout max tasks w h u later g ∧
      ∀ s q r, s ∈ (insertions h).map Prod.fst → Began layout max tasks w h s q r →
        r.length ≤ g.length := by
  classical
  let some (n : Nat) : Prop := ∃ u later g, u ∈ (insertions h).map Prod.fst ∧
    Began layout max tasks w h u later g ∧ g.length = n
  have bounded {n : Nat} (hn : some n) : n ≤ h.length := by
    obtain ⟨u, later, g, -, began, rfl⟩ := hn
    rw [began.split, List.length_append]
    exact Nat.le_add_left _ _
  obtain ⟨later, g, began⟩ := exists_began lawful surveyed turning limited inserted
  have first : some g.length := ⟨t, later, g, List.mem_map_of_mem inserted, began, rfl⟩
  obtain ⟨u, later', g', member, began', last⟩ := Nat.findGreatest_spec (bounded first) first
  refine ⟨u, later', g', member, began', fun s q r inserts begins => ?_⟩
  have other : some r.length := ⟨s, q, r, inserts, begins, rfl⟩
  rw [last]
  exact Nat.le_findGreatest (bounded other) other

/-- Who has inserted since the last visit began was running then. -/
theorem Began.filling_of_insertion
    (lawful : Lawful (fun t => entriesRule blake3 layout config (tasks t)) h)
    (surveyed : Surveyed layout w h) (turning : h.Always fun e _ => e.op ≠ .spin)
    (limited : config.maxEntries = some max) (began : Began layout max tasks w h t later g)
    (last : ∀ s q r, s ∈ (insertions h).map Prod.fst → Began layout max tasks w h s q r →
      r.length ≤ g.length) {u : T} (inserted : (u, key) ∈ insertions later) : Filling tasks g u := by
  obtain ⟨e, event⟩ := mem_insertions.mp inserted
  obtain ⟨front, back, split⟩ := List.append_of_mem event
  have whole : h = front ++ ⟨u, .entriesInsert key e, ()⟩ :: (back ++ g) := by
    rw [began.split, split]
    simp
  have moment : ⟨u, .entriesInsert key e, ()⟩ :: (back ++ g) <:+ h := ⟨front, whole.symm⟩
  obtain ⟨inserts, nothing, -⟩ := lawful _ _ moment
  have member : (u, key) ∈ insertions h :=
    mem_insertions.mpr ⟨e, moment.subset List.mem_cons_self⟩
  obtain ⟨q, r, other⟩ := exists_began lawful surveyed turning limited member
  have earlier : r <:+ g :=
    List.suffix_of_suffix_length_le ⟨q, other.split.symm⟩ ⟨later, began.split.symm⟩
      (last u q r (List.mem_map_of_mem member) other)
  refine ⟨inserts.writes, fun idle => ?_, fun k f event => ?_⟩
  · have own := History.own_suffix (t := u) earlier
    rw [idle] at own
    exact other.filling.2.1 (List.suffix_nil.mp own)
  · exact nothing k f ((History.own_suffix (List.suffix_append back g)).subset event)

/-- The keys that have been inserted since then. -/
def recent (layout : Layout) (w : World) (later : History T) : List String :=
  (List.range layout.shards).flatMap fun shard =>
    (w.shard shard).keys.filter fun key => !untouched later key

omit [DecidableEq T] in
private theorem length_recent_le (surveyed : Surveyed layout w h) (later : History T) :
    (recent layout w later).length ≤ (insertions later).length := by
  have nodup : (recent layout w later).Nodup := by
    refine List.nodup_flatMap.mpr ⟨fun shard _ => (w.shard shard).keys_nodup.filter _, ?_⟩
    refine List.Pairwise.imp ?_ List.nodup_range
    intro a b ne key inA inB
    exact ne ((surveyed.placed a key (List.mem_filter.mp inA).1).symm.trans
      (surveyed.placed b key (List.mem_filter.mp inB).1))
  have inserted : recent layout w later ⊆ (insertions later).map Prod.snd := by
    intro key member
    obtain ⟨shard, -, member⟩ := List.mem_flatMap.mp member
    have touched := (List.mem_filter.mp member).2
    rw [untouched, Bool.not_eq_true', List.all_eq_false] at touched
    obtain ⟨⟨t, op, r⟩, event, inserts⟩ := touched
    cases op with
    | entriesInsert k e =>
      obtain rfl : k = key := by simpa [Op.inserts] using inserts
      exact List.mem_map.mpr ⟨(t, k), mem_insertions.mpr ⟨e, event⟩, rfl⟩
    | _ => exact absurd rfl inserts
  exact (List.subperm_of_subset nodup inserted).length_le.trans_eq (List.length_map _)

omit [DecidableEq T] in
private theorem size_eq (w : World) (later : History T) : w.size layout =
    ((List.range layout.shards).map fun shard => (lasting w later shard).length).sum +
      (recent layout w later).length := by
  rw [recent, List.length_flatMap, ← List.sum_map_add, World.size]
  refine congrArg List.sum (List.map_congr_left fun shard _ => ?_)
  have parts := List.length_eq_length_filter_add (l := (w.shard shard).keys) (untouched later)
  rw [lasting, ← parts]
  exact (List.length_map _).symm

private theorem surveyed_preserved : PreservesLawful (machine layout T) Restriction.none
    (fun t => entriesRule blake3 layout config (tasks t)) (Surveyed layout) := by
  intro t op now w h r u lawful surveyed allowed _ performed
  have result : act layout now op w = (r, u) := by
    simp only [machine] at performed
    split at performed
    · cases performed
    · exact Option.some.inj performed
  obtain rfl : (act layout now op w).1 = r := congrArg Prod.fst result
  obtain rfl : (act layout now op w).2 = u := congrArg Prod.snd result
  exact surveyed.step t op now

omit [DecidableEq T] in
private theorem surveyed_initial : Surveyed layout (initial blake3 layout config rounds tasks).world
    (initial blake3 layout config rounds tasks).history where
  placed shard key member := absurd member List.not_mem_nil
  inserted shard key member := absurd member List.not_mem_nil
  seen later e earlier shard count split := by
    cases later with
    | nil | cons => cases split

/-- However calls and cleanup rounds overlap, the backend holds no more entries than its limit (and than
one) but for the writers beyond the first that run at the same time: with at most `k` calls of `put` and
`bump_generation` between their first step and their insertion at any moment, at most `k - 1` more. -/
theorem overshoot_is_bounded {T : Type} [DecidableEq T] {blake3 : Bytes → String} {layout : Layout}
    {config : LocalBackendConfig} {rounds : Nat} {tasks : T → Task}
    {d : Config T Op Op.Res World Reply}
    (run : Reaches (machine layout T) Restriction.none (initial blake3 layout config rounds tasks) d)
    {max : Nat} (limited : config.maxEntries = some max) {k : Nat}
    (overlap : ∀ s, s <:+ d.history → ∀ F : Finset T, (∀ t ∈ F, Filling tasks s t) → F.card ≤ k) :
    d.world.size layout ≤ Nat.max max 1 + (k - 1) := by
  obtain ⟨lawful, surveyed, -⟩ :=
    run.lawful surveyed_preserved (fun t => obeys_entries (tasks t)) rfl surveyed_initial
  have turning : d.history.Always fun e _ => e.op ≠ .spin := by
    refine run.permitted (fun t op now w h r u _ performed => ?_) rfl
    rintro rfl
    simp [machine] at performed
  cases nothing : insertions d.history with
  | nil =>
    have none : d.world.size layout =
        ((List.range layout.shards).map fun _ => 0).sum := by
      refine congrArg List.sum (List.map_congr_left fun shard _ => ?_)
      cases keys : (d.world.shard shard).keys with
      | nil => exact (List.length_map _).symm.trans (congrArg List.length keys)
      | cons key rest =>
        obtain ⟨t, inserted⟩ := surveyed.inserted shard key (keys ▸ List.mem_cons_self)
        rw [nothing] at inserted
        cases inserted
    rw [none]
    simp
  | cons first rest =>
    have inserted : (first.1, first.2) ∈ insertions d.history := nothing ▸ List.mem_cons_self
    obtain ⟨t, later, g, inserts, began, last⟩ :=
      exists_last_began lawful surveyed turning limited inserted
    let F := ((insertions later).map Prod.fst).toFinset
    have few : F.card ≤ k := by
      refine overlap g ⟨later, began.split.symm⟩ F fun u member => ?_
      obtain ⟨⟨u, key⟩, inserted, rfl⟩ := List.mem_map.mp (List.mem_toFinset.mp member)
      exact began.filling_of_insertion lawful surveyed turning limited last inserted
    have size : F.card = (insertions later).length := by
      have sublist : (insertions later).Sublist (insertions d.history) := by
        rw [began.split]
        exact (List.sublist_append_left later g).filterMap _
      have nodup := (nodup_insertions lawful).sublist (sublist.map Prod.fst)
      exact (List.toFinset_card_of_nodup nodup).trans (List.length_map _)
    have one : 1 ≤ (insertions later).length := by
      obtain ⟨⟨u, key⟩, inserted, rfl⟩ := List.mem_map.mp inserts
      obtain ⟨e, event⟩ := mem_insertions.mp inserted
      rw [began.split] at event
      rcases List.mem_append.mp event with recently | before
      · exact List.length_pos_of_mem (mem_insertions.mpr ⟨e, recently⟩)
      · exact absurd (History.mem_own.mpr before) (began.filling.2.2 key e)
    have within := length_recent_le surveyed later
    have room := began.room
    rw [size_eq d.world later]
    omega

end

/-- Two puts that both find the backend empty. -/
def racingPuts : Bool → Task
  | false => .call (.put "k" [1] (.fromSecs 1))
  | true => .call (.put "longer" [2] (.fromSecs 1))

/-- The bound is attained: there is room for one entry, and two writers fill it. -/
theorem racing_puts_overshoot : ∃ d : Config Bool Op Op.Res World Reply,
    d.world.size sampleLayout = 2 ∧ d.world.size sampleLayout ≤ Nat.max 1 1 + (2 - 1) := by
  obtain ⟨d, run, seen⟩ := play_observed (M := machine sampleLayout Bool) (A := Restriction.none)
    (c := initial Sample.hash sampleLayout { maxEntries := some 1 } 2 racingPuts)
    (List.replicate 3 (false, 5) ++ List.replicate 5 (true, 5) ++ List.replicate 2 (false, 5))
    (fun d => decide (d.world.size sampleLayout = 2)) (by decide +kernel)
  exact ⟨d, of_decide_eq_true seen,
    overshoot_is_bounded run rfl fun s _ F _ => (Finset.card_le_univ F).trans_eq rfl⟩

end RbatisCache.LocalBackend.Concurrent
