import RbatisCache.Spi.LocalBackend.Counters

/-! The entries of the in-process backend under concurrent calls: who inserts them, who may remove them,
and what a `get` makes of them. -/
namespace RbatisCache.LocalBackend.Concurrent
open Interleaving
open Interleaving.Prog (bind_eq perform_bind pure_eq)

/-- What `put` computes from the clock and its TTL. -/
def expiresAt (now : UInt64) (ttl : Duration) : UInt64 :=
  saturatingAdd now (.ofNat (if ttl.isZero then Duration.fromSecs 60 else ttl).asMillis)

/-- A shard was seen with so many entries. -/
def Saw (scan : Done) (shard count : Nat) : Prop :=
  ⟨.shardLen shard, count⟩ ∈ scan ∨
    ∃ entries : Entries, ⟨.shardIter shard, entries⟩ ∈ scan ∧ entries.length = count

/-- A visit of all shards that has found so many entries, after `rest`. -/
def Scanned (layout : Layout) (total : Nat) (rest after : Done) : Prop :=
  ∃ scan counts, after = scan ++ rest ∧
    List.Forall₂ (Saw scan) (List.range layout.shards) counts ∧ counts.sum = total

/-- A call that had already begun has visited all shards and found room for an entry, unless its loop
has used up its rounds. -/
def Room (layout : Layout) (max : Nat) (done : Done) : Prop :=
  ⟨.spin, ()⟩ ∈ done ∨
    ∃ total rest, rest ≠ [] ∧ Scanned layout total rest done ∧ total < Nat.max max 1

/-- The entry that a call inserts, once it has done `done`. -/
inductive Task.Inserts (blake3 : Bytes → String) : Task → Done → String → Entry → Prop
  | put {k : String} {v : Bytes} {ttl : Duration} {now seq : UInt64} {done : Done}
    (clock : ⟨.nowMs, now⟩ ∈ done) :
    Task.Inserts blake3 (.call (.put k v ttl)) done (entryKey k) ⟨v, expiresAt now ttl, seq, seq, 0⟩
  | bump {n : String} {counter : CounterId} {old seq : UInt64} {done : Done}
    (incremented : ⟨.fetchAdd counter, old⟩ ∈ done) :
    Task.Inserts blake3 (.call (.bumpGeneration n)) done (generationKey blake3 n)
      ⟨toLeBytes (saturatingAdd old 1), u64Max, seq, seq, 0⟩

section
variable (blake3 : Bytes → String) (layout : Layout) (config : LocalBackendConfig)

def NothingInserted (done : Done) : Prop := ∀ k f, ⟨.entriesInsert k f, ()⟩ ∉ done

/-- What a call has done before it changes the entries. -/
def entriesRule (task : Task) (done : Done) : Op → Prop
  | .entriesInsert key e => task.Inserts blake3 done key e ∧
      NothingInserted done ∧
      ∀ max, config.maxEntries = some max → Room layout max done
  | .entriesRemove _ => config.maxEntries ≠ none
  | .shardRetain _ now | .entriesRemoveIf _ now => ⟨.nowMs, now⟩ ∈ done
  | _ => True

/-- What a `get` answers, from the clock and the entry that it has seen. -/
def Looked : Task → Reply → Done → Prop
  | .call (.get k), reply, done => ∃ now found value, reply = some ⟨.get k, .ok value⟩ ∧
      [⟨.entriesGet (entryKey k), found⟩, ⟨.nowMs, now⟩] <:+ done ∧
      value = Option.bind found fun e : Entry => if now < e.expiresAtMs then some e.bytes else none
  | _, _, _ => True

/-- What the eviction does, with the clock that its call has read. -/
def Sweeps (now : UInt64) : Op → Prop
  | .shardLen _ | .shardIter _ | .shardLower _ _ | .spin => True
  | .shardRetain _ limit => limit = now
  | .entriesRemove _ => config.maxEntries ≠ none
  | _ => False

end

section
variable {blake3 : Bytes → String} {layout : Layout} {config : LocalBackendConfig} {rounds : Nat}
variable {task : Task} {now : UInt64} {done : Done} {β : Type} {P : Op → Prop}

/-! ### What the eviction does and sees -/

private theorem only_shards {visit : Nat → Code β} (each : ∀ shard, (visit shard).Only P) :
    (eachShard layout visit).Only P := by
  unfold eachShard
  induction List.range layout.shards with
  | nil => trivial
  | cons shard rest ih => exact (each shard).bind fun _ => ih.bind fun _ => trivial

private theorem only_one {op : Op} (allowed : P op) : (Prog.perform op : Code op.Res).Only P :=
  ⟨allowed, fun _ => trivial⟩

private theorem only_lens : (entriesLen layout).Only (Sweeps config now) :=
  Prog.Only.bind (only_shards fun _ => only_one trivial) fun _ => trivial

private theorem only_iters : (entriesIter layout).Only (Sweeps config now) :=
  Prog.Only.bind (only_shards fun _ => only_one trivial) fun _ => trivial

theorem only_retains : (entriesRetain layout now).Only (Sweeps config now) :=
  Prog.Only.bind (only_shards fun _ => only_one rfl) fun _ => trivial

private theorem only_lowers (least : Nat) : (entriesLower layout least).Only (Sweeps config now) :=
  Prog.Only.bind (only_shards fun _ => only_one trivial) fun _ => trivial

private theorem only_lfu : (pickLfu layout).Only (Sweeps config now) := only_iters.bind fun _ => trivial

private theorem only_victim (strategy : EvictionStrategy) :
    (pickVictim layout strategy).Only (Sweeps config now) := by
  cases strategy with
  | fifo => exact only_iters.bind fun _ => trivial
  | lru => exact only_iters.bind fun _ => trivial
  | lfu =>
    refine only_iters.bind fun entries => ?_
    split
    · exact only_lfu
    · exact (only_lowers _).bind fun _ => only_lfu

private theorem only_loop {max : Nat} (limited : config.maxEntries = some max) :
    (evictLoop layout config max rounds).Only (Sweeps config now) := by
  have some : config.maxEntries ≠ none := by simp [limited]
  induction rounds with
  | zero => exact ⟨trivial, fun _ => trivial⟩
  | succ rounds ih =>
    refine only_lens.bind fun len => ?_
    split
    · trivial
    · refine (only_victim _).bind fun victim => ?_
      split
      · exact ⟨some, fun _ => ih⟩
      · trivial

theorem only_evict : (evictIfNeeded layout config rounds now).Only (Sweeps config now) := by
  unfold evictIfNeeded
  split
  · trivial
  · next max limited =>
    refine only_lens.bind fun len => ?_
    split
    · trivial
    · exact only_retains.bind fun _ => only_loop limited

/-- A visit of the shards in turn leaves one event for each of them. -/
theorem ensures_inTurn {visit : Nat → Code β} (event : Nat → β → Sigma Op.Res)
    (each : ∀ shard done, (visit shard).Ensures (fun b after => after = event shard b :: done) done)
    (shards : List Nat) : (inTurn visit shards).Ensures (fun bs after => ∃ scan, after = scan ++ done ∧
      List.Forall₂ (fun shard b => event shard b ∈ scan) shards bs) done := by
  induction shards generalizing done with
  | nil => exact ⟨[], rfl, .nil⟩
  | cons shard rest ih =>
    refine (each shard done).andThen fun b after visited _ => ?_
    subst visited
    refine ih.andThen fun bs after ⟨scan, visited, events⟩ _ => ?_
    refine ⟨scan ++ [event shard b], ?_, .cons ?_ (events.imp fun _ _ member => ?_)⟩
    · rw [visited, List.append_assoc]
      rfl
    · exact List.mem_append_right _ (List.mem_singleton_self _)
    · exact List.mem_append_left _ member

private theorem ensures_lens :
    (entriesLen layout).Ensures (fun len after => Scanned layout len done after) done := by
  have each (shard : Nat) (done : Done) : (Prog.perform (Op.shardLen shard)).Ensures
      (fun len after => after = ⟨.shardLen shard, len⟩ :: done) done := ⟨trivial, fun _ => rfl⟩
  refine (ensures_inTurn (fun shard len => ⟨.shardLen shard, len⟩) each _).andThen
    fun counts after ⟨scan, visited, events⟩ _ => ?_
  exact ⟨scan, counts, visited, events.imp fun _ _ member => .inl member, rfl⟩

private theorem ensures_iters : (entriesIter layout).Ensures
    (fun entries after => Scanned layout entries.length done after) done := by
  have each (shard : Nat) (done : Done) : (Prog.perform (Op.shardIter shard)).Ensures
      (fun entries after => after = ⟨.shardIter shard, entries⟩ :: done) done :=
    ⟨trivial, fun _ => rfl⟩
  refine (ensures_inTurn (fun shard entries => ⟨.shardIter shard, entries⟩) each _).andThen
    fun seen after ⟨scan, visited, events⟩ _ => ?_
  refine ⟨scan, seen.map List.length, visited, ?_, List.length_flatten.symm⟩
  rw [List.forall₂_map_right_iff]
  exact events.imp fun _ entries member => .inr ⟨entries, member, rfl⟩

/-- What a choice of a victim has seen that finds none. -/
def Emptied (layout : Layout) (victim : Option String) (done after : Done) : Prop :=
  done <:+ after ∧ (victim = none → ∃ rest, done <:+ rest ∧ Scanned layout 0 rest after)

private theorem ensures_least {γ : Type} [LinearOrder γ] (measure : Entry → γ) :
    ((entriesIter layout).bind fun entries => .ret (minKey measure entries)).Ensures
      (fun victim after => Emptied layout victim done after) done := by
  refine ensures_iters.andThen fun entries after scanned suffix => ⟨suffix, fun none => ?_⟩
  rw [minKey, Option.map_eq_none_iff, List.argmin_eq_none] at none
  subst none
  exact ⟨done, List.suffix_refl _, scanned⟩

theorem Emptied.older {victim : Option String} {older after : Done}
    (emptied : Emptied layout victim done after) (suffix : older <:+ done) :
    Emptied layout victim older after := by
  refine ⟨suffix.trans emptied.1, fun none => ?_⟩
  obtain ⟨rest, later, scanned⟩ := emptied.2 none
  exact ⟨rest, suffix.trans later, scanned⟩

private theorem ensures_victim (strategy : EvictionStrategy) : (pickVictim layout strategy).Ensures
    (fun victim after => Emptied layout victim done after) done := by
  cases strategy with
  | fifo => exact ensures_least _
  | lru => exact ensures_least _
  | lfu =>
    refine ensures_iters.andThen fun entries after _ grown => ?_
    split
    · exact (ensures_least _).mono fun _ _ emptied => emptied.older grown
    · refine (Prog.ensures_true (p := entriesLower layout _)).andThen fun _ lowered _ further => ?_
      exact (ensures_least _).mono fun _ _ emptied => emptied.older (grown.trans further)

/-- The eviction ends with a visit that has found room. -/
theorem ensures_loop {max : Nat} (begun : done ≠ []) : (evictLoop layout config max rounds).Ensures
    (fun _ after => Room layout max after) done := by
  induction rounds generalizing done with
  | zero => exact ⟨trivial, fun _ => .inl List.mem_cons_self⟩
  | succ rounds ih =>
    refine ensures_lens.andThen fun len after scanned grown => ?_
    split
    · next room => exact .inr ⟨len, done, begun, scanned, room.trans_le (Nat.le_max_left _ _)⟩
    · have begun' : after ≠ [] := fun nothing => begun (List.suffix_nil.mp (nothing ▸ grown))
      refine (ensures_victim _).andThen fun victim later emptied _ => ?_
      split
      · exact ⟨trivial, fun _ => ih (List.cons_ne_nil _ _)⟩
      · obtain ⟨rest, further, scanned⟩ := emptied.2 rfl
        have begun'' : rest ≠ [] := fun nothing => begun' (List.suffix_nil.mp (nothing ▸ further))
        exact .inr ⟨0, rest, begun'', scanned, Nat.one_pos.trans_le (Nat.le_max_right _ _)⟩

private theorem ensures_evict (begun : done ≠ []) : (evictIfNeeded layout config rounds now).Ensures
    (fun _ after => ∀ max, config.maxEntries = some max → Room layout max after) done := by
  unfold evictIfNeeded
  cases limited : config.maxEntries with
  | none => exact nofun
  | some max =>
    refine ensures_lens.andThen fun len after scanned grown => ?_
    have same : ∀ other, some max = some other → max = other := fun _ => Option.some.inj
    split
    · next room =>
      intro other eq
      rw [← same other eq]
      exact .inr ⟨len, done, begun, scanned, room.trans_le (Nat.le_max_left _ _)⟩
    · refine (Prog.ensures_true (p := entriesRetain layout now)).andThen fun _ pruned _ further => ?_
      have begun' : pruned ≠ [] :=
        fun nothing => begun (List.suffix_nil.mp (nothing ▸ grown.trans further))
      refine (ensures_loop begun').mono fun _ after room other eq => ?_
      rw [← same other eq]
      exact room

/-! ### The calls obey -/

/-- A call that has read the clock and inserted nothing. -/
def Timed (now : UInt64) (done : Done) : Prop := ⟨.nowMs, now⟩ ∈ done ∧ NothingInserted done

theorem Timed.cons (timed : Timed now done) {op : Op} (r : op.Res)
    (other : ∀ k f, op ≠ .entriesInsert k f) : Timed now (⟨op, r⟩ :: done) := by
  refine ⟨List.mem_cons_of_mem _ timed.1, fun k f member => ?_⟩
  rcases List.mem_cons.mp member with same | older
  · cases same
    exact other k f rfl
  · exact timed.2 k f older

private theorem obeys_sweep {p : Code β} (only : p.Only (Sweeps config now)) (timed : Timed now done) :
    p.Obeys (entriesRule blake3 layout config task) (fun _ after => Timed now after) done := by
  refine only.obeys (fun done op sweeps timed => ?_) (fun done op r sweeps timed => ?_) timed
  · cases op with
    | entriesInsert | entriesRemoveIf => exact sweeps.elim
    | shardRetain shard limit =>
      obtain rfl : limit = now := sweeps
      exact timed.1
    | entriesRemove key => exact sweeps
    | _ => trivial
  · refine timed.cons r fun k f same => ?_
    subst same
    exact sweeps

theorem Room.cons {max : Nat} {e : Sigma Op.Res} (room : Room layout max done) :
    Room layout max (e :: done) := by
  rcases room with spun | ⟨total, rest, begun, ⟨scan, counts, visited, seen, sum⟩, small⟩
  · exact .inl (List.mem_cons_of_mem _ spun)
  · refine .inr ⟨total, rest, begun, ⟨e :: scan, counts, ?_, seen.imp fun _ _ saw => ?_, sum⟩, small⟩
    · rw [visited, List.cons_append]
    · rcases saw with len | ⟨entries, iter, same⟩
      · exact .inl (List.mem_cons_of_mem _ len)
      · exact .inr ⟨entries, List.mem_cons_of_mem _ iter, same⟩

private theorem obeys_insertEntry (timed : Timed now done) {key : String} {bytes : Bytes}
    {expiresAtMs : UInt64} (inserts : ∀ seq after, done <:+ after →
      task.Inserts blake3 after key ⟨bytes, expiresAtMs, seq, seq, 0⟩) :
    (insertEntry layout config rounds key bytes now expiresAtMs).Obeys
      (entriesRule blake3 layout config task) (fun _ _ => True) done := by
  have begun : done ≠ [] := List.ne_nil_of_mem timed.1
  have sweeps : (evictIfNeeded layout config rounds now).Obeys (entriesRule blake3 layout config task)
    (fun _ after => Timed now after) done := obeys_sweep only_evict timed
  have evicts := (sweeps.and (ensures_evict begun)).weaken fun _ _ both => both.1
  refine evicts.andThen fun _ after ⟨timed, room⟩ grown => ?_
  refine ⟨trivial, fun seq => ⟨⟨?_, ?_, ?_⟩, fun _ => trivial⟩⟩
  · exact inserts seq _ (grown.trans (List.suffix_cons _ _))
  · exact (timed.cons seq (by simp)).2
  · exact fun max limited => (room max limited).cons

theorem obeys_entries (task : Task) : (task.program blake3 layout config rounds).Obeys
    (entriesRule blake3 layout config task) (Looked task) [] := by
  have timed (now : UInt64) {done : Done} (nothing : NothingInserted done) :
      Timed now (⟨.nowMs, now⟩ :: done) := by
    refine ⟨List.mem_cons_self, fun k f member => ?_⟩
    rcases List.mem_cons.mp member with same | older
    · cases same
    · exact nothing k f older
  have fresh : NothingInserted [] := fun _ _ member => absurd member List.not_mem_nil
  cases task with
  | prune =>
    refine ⟨trivial, fun now => ?_⟩
    exact (obeys_sweep only_retains (timed now fresh)).andThen fun _ _ _ _ => trivial
  | call op =>
    cases op with
    | get key =>
      refine ⟨trivial, fun now => ⟨trivial, fun found => ⟨trivial, fun again => ?_⟩⟩⟩
      have looked : [⟨.entriesGet (entryKey key), found⟩, ⟨.nowMs, now⟩] <:+
          [⟨.entriesGet (entryKey key), again⟩, ⟨.entriesGet (entryKey key), found⟩,
            (⟨.nowMs, now⟩ : Sigma Op.Res)] := List.suffix_cons _ _
      cases again with
      | none =>
        exact ⟨trivial, fun _ => ⟨now, found, _, rfl, looked.trans (List.suffix_cons _ _), rfl⟩⟩
      | some entry =>
        simp only [pure_eq, Prog.ret_bind, Prog.bind_eq]
        split
        · refine ⟨?_, fun _ => ⟨trivial, fun _ => ⟨now, found, _, rfl, ?_, rfl⟩⟩⟩
          · exact looked.subset (List.mem_cons_of_mem _ List.mem_cons_self)
          · exact (looked.trans (List.suffix_cons _ _)).trans (List.suffix_cons _ _)
        · exact ⟨trivial, fun _ => ⟨now, found, _, rfl, looked.trans (List.suffix_cons _ _), rfl⟩⟩
    | put key value ttl =>
      refine ⟨trivial, fun now => ?_⟩
      refine Prog.Obeys.bind (Prog.Obeys.bind ?_)
      change Prog.Obeys _ _ ((insertEntry layout config rounds _ _ now _).bind _) _
      refine (obeys_insertEntry (timed now fresh) fun seq after grown => ?_).andThen
        fun _ _ _ _ => trivial
      exact .put (grown.subset List.mem_cons_self)
    | generation n =>
      refine ⟨trivial, fun found => ?_⟩
      cases found with
      | none => trivial
      | some counter => exact ⟨trivial, fun _ => trivial⟩
    | bumpGeneration n =>
      refine ⟨trivial, fun counter => ⟨trivial, fun old => ⟨trivial, fun now => ?_⟩⟩⟩
      refine Prog.Obeys.bind (Prog.Obeys.bind ?_)
      change Prog.Obeys _ _ ((insertEntry layout config rounds _ _ now _).bind _) _
      have nothing : NothingInserted [⟨.fetchAdd counter, old⟩, ⟨.generationsEntry n, counter⟩] := by
        intro k f member
        simp at member
      refine (obeys_insertEntry (timed now nothing) fun seq after grown => ?_).andThen
        fun _ _ _ _ => trivial
      exact .bump (grown.subset (List.mem_cons_of_mem _ List.mem_cons_self))

end

/-! ### The entries and the history -/

/-- All but the bookkeeping of the eviction policies. -/
def core (e : Entry) : Bytes × UInt64 := (e.bytes, e.expiresAtMs)

def World.find (layout : Layout) (w : World) (key : String) : Option Entry :=
  (w.shard (layout.shardOf key)).lookup key

/-- All that an operation can do to a key. -/
inductive Changed (layout : Layout) (op : Op) (w u : World) (key : String) : Prop
  | kept (same : (u.find layout key).map core = (w.find layout key).map core)
    (other : ∀ e, op ≠ .entriesInsert key e)
  | inserted {e : Entry} (found : u.find layout key = some e) (operation : op = .entriesInsert key e)
  | removed (gone : u.find layout key = none) (operation : op = .entriesRemove key)
  | expired {e : Entry} {limit : UInt64} (gone : u.find layout key = none)
    (was : w.find layout key = some e) (late : e.expiresAtMs ≤ limit)
    (operation : op = .entriesRemoveIf key limit ∨ op = .shardRetain (layout.shardOf key) limit)

section
variable {layout : Layout} {w : World} {key : String} {op : Op}

private theorem find_setShard (shard : Nat) (m : DashMap String Entry) :
    (w.setShard shard m).find layout key =
      if layout.shardOf key = shard then m.lookup key else w.find layout key := by
  unfold World.find World.setShard
  dsimp only
  split
  · next same => rw [same, Function.update_self]
  · next other => rw [Function.update_of_ne other]

/-- An operation that erases some other key. -/
theorem Changed.erase_ne {key' : String} (ne : key ≠ key') (other : ∀ e, op ≠ .entriesInsert key e) :
    Changed layout op w (w.setShard (layout.shardOf key')
      ((w.shard (layout.shardOf key')).erase key')) key := by
  refine .kept ?_ other
  rw [find_setShard]
  split
  · next same => rw [AList.lookup_erase_ne ne, ← same, World.find]
  · rfl

theorem Changed.touch (key' : String) :
    Changed layout (.entriesTouch key') w (w.entriesTouch layout key') key := by
  refine .kept ?_ (by simp)
  unfold World.entriesTouch
  dsimp only
  split
  · next e found =>
    change Option.map core ((w.setShard _ _).find layout key) = _
    rw [find_setShard]
    split
    · next same =>
      rw [DashMap.lookup_replace, ← same]
      change Option.map core ((w.find layout key).map _) = _
      cases there : w.find layout key with
      | none => rfl
      | some f =>
        by_cases eq : key = key'
        · subst eq
          obtain rfl : e = f := Option.some.inj (found.symm.trans there)
          simp [core]
        · simp [eq]
    · rfl
  · rfl

theorem changed (layout : Layout) (now : UInt64) (op : Op) (w : World) (key : String) :
    Changed layout op w (act layout now op w).2 key := by
  cases op with
  | entriesInsert key' e =>
    by_cases same : key = key'
    · subst same
      refine .inserted (e := e) ?_ rfl
      simp [act, find_setShard]
    · refine .kept ?_ (by simpa using fun eq => absurd eq.symm same)
      simp only [act, find_setShard]
      split
      · next shard => rw [AList.lookup_insert_ne same, ← shard, World.find]
      · rfl
  | entriesRemove key' =>
    by_cases same : key = key'
    · subst same
      refine .removed ?_ rfl
      simp [act, find_setShard]
    · exact .erase_ne same (by simp)
  | entriesRemoveIf key' limit =>
    simp only [act]
    split
    · next e found =>
      dsimp only
      split
      · next late =>
        by_cases same : key = key'
        · subst same
          refine .expired ?_ found late (.inl rfl)
          simp [find_setShard]
        · exact .erase_ne same (by simp)
      · exact .kept rfl (by simp)
    · exact .kept rfl (by simp)
  | entriesTouch key' => exact .touch key'
  | shardRetain shard limit =>
    by_cases same : layout.shardOf key = shard
    · subst same
      have result : (act layout now (.shardRetain (layout.shardOf key) limit) w).2.find layout key =
          ((w.shard (layout.shardOf key)).retain
            fun _ e => decide (limit < e.expiresAtMs)).lookup key := by
        simp [act, find_setShard]
      cases there : w.find layout key with
      | none =>
        refine .kept ?_ (by simp)
        rw [result, there, DashMap.lookup_retain_of_absent _ there]
      | some e =>
        by_cases late : e.expiresAtMs ≤ limit
        · refine .expired ?_ there late (.inr rfl)
          rw [result]
          exact DashMap.lookup_retain_of_neg there (decide_eq_false (UInt64.not_lt.mpr late))
        · refine .kept ?_ (by simp)
          rw [result, there, DashMap.lookup_retain there (decide_eq_true (UInt64.not_le.mp late))]
    · refine .kept ?_ (by simp)
      simp [act, find_setShard, same]
  | shardLower shard least =>
    refine .kept ?_ (by simp)
    simp only [act, find_setShard]
    split
    · next same =>
      rw [DashMap.lookup_mapValues, ← same, World.find, Option.map_map]
      rfl
    · rfl
  | generationsEntry n =>
    refine .kept ?_ (by simp)
    cases w.entered n with
    | found _ result | created _ result =>
      simp only [act, result, World.find]
  | _ => exact .kept rfl (by simp)

end

section
variable {T : Type} {key : String} {h g s : History T} {t u : T} {e f : Entry} {op : Op} {r : op.Res}

/-- The newest insertion of an entry under the key, and the history before it. -/
def Newest (key : String) (t : T) (e : Entry) (g h : History T) : Prop :=
  ∃ later, h = later ++ ⟨t, .entriesInsert key e, ()⟩ :: g ∧
    ∀ event ∈ later, ∀ f, event.op ≠ .entriesInsert key f

theorem Newest.insert : Newest key t e h (⟨t, .entriesInsert key e, ()⟩ :: h) :=
  ⟨[], rfl, fun _ member => absurd member List.not_mem_nil⟩

theorem Newest.cons (newest : Newest key t e g h) (other : ∀ f, op ≠ .entriesInsert key f) :
    Newest key t e g (⟨u, op, r⟩ :: h) := by
  obtain ⟨later, rfl, quiet⟩ := newest
  refine ⟨⟨u, op, r⟩ :: later, rfl, fun event member f => ?_⟩
  rcases List.mem_cons.mp member with rfl | member
  · exact other f
  · exact quiet event member f

theorem Newest.of_cons (newest : Newest key t e g (⟨u, op, r⟩ :: h)) :
    (op = .entriesInsert key e ∧ u = t ∧ g = h) ∨
      (∀ f, op ≠ .entriesInsert key f) ∧ Newest key t e g h := by
  obtain ⟨later, same, quiet⟩ := newest
  cases later with
  | nil =>
    cases same
    exact .inl ⟨rfl, rfl, rfl⟩
  | cons event later =>
    obtain ⟨rfl, rest⟩ := List.cons.inj same
    exact .inr ⟨quiet _ List.mem_cons_self, later, rest, fun event member =>
      quiet event (List.mem_cons_of_mem _ member)⟩

theorem Newest.unique {g' : History T} (newest : Newest key t e g h) (newest' : Newest key u f g' h) :
    t = u ∧ e = f ∧ g = g' := by
  induction h with
  | nil =>
    obtain ⟨later, same, -⟩ := newest
    cases later with
    | nil | cons => cases same
  | cons event h ih =>
    obtain ⟨s, op, r⟩ := event
    rcases newest.of_cons with ⟨rfl, rfl, rfl⟩ | ⟨other, older⟩
    · rcases newest'.of_cons with ⟨same, rfl, rfl⟩ | ⟨other, -⟩
      · cases same
        exact ⟨rfl, rfl, rfl⟩
      · exact absurd rfl (other e)
    · rcases newest'.of_cons with ⟨same, -, -⟩ | ⟨-, older'⟩
      · exact absurd same (other f)
      · exact ih older older'

theorem Newest.suffix (newest : Newest key t e g h) :
    ⟨t, .entriesInsert key e, ()⟩ :: g <:+ h := by
  obtain ⟨later, rfl, -⟩ := newest
  exact List.suffix_append _ _

/-- Some call has read a clock at which the newest entry under the key had expired. -/
def Outlived (key : String) (h : History T) : Prop :=
  ∀ t e g, Newest key t e g h → ∃ u now, ⟨u, .nowMs, now⟩ ∈ h ∧ e.expiresAtMs ≤ now

/-- What is found under a key is the newest entry. Without a limit, nothing is found only when there is
none or it has expired. -/
structure Shows (config : LocalBackendConfig) (key : String) (found : Option Entry) (h : History T) :
    Prop where
  newest : ∀ e, found = some e → ∃ t f g, Newest key t f g h ∧ core f = core e
  absent : config.maxEntries = none → found = none → Outlived key h

/-- What the entries and the history have to do with each other. -/
structure Filed (layout : Layout) (config : LocalBackendConfig) (w : World) (h : History T) : Prop where
  stored : ∀ key, Shows config key (w.find layout key) h
  seen : h.Always fun event s => ∀ t key found, event = ⟨t, .entriesGet key, found⟩ →
    Shows config key found s

variable {config : LocalBackendConfig} {layout : Layout} {w : World}

theorem Outlived.cons (outlived : Outlived key h) (other : ∀ f, op ≠ .entriesInsert key f) :
    Outlived key (⟨u, op, r⟩ :: h) := by
  intro t e g newest
  rcases newest.of_cons with ⟨same, -, -⟩ | ⟨-, older⟩
  · exact absurd same (other e)
  · obtain ⟨s, now, clock, late⟩ := outlived t e g older
    exact ⟨s, now, List.mem_cons_of_mem _ clock, late⟩

theorem Shows.kept {before after : Option Entry} (shows : Shows config key before h)
    (same : after.map core = before.map core) (other : ∀ f, op ≠ .entriesInsert key f) :
    Shows config key after (⟨u, op, r⟩ :: h) where
  newest e found := by
    rw [found, Option.map_some] at same
    obtain ⟨e', found', eq⟩ := Option.map_eq_some_iff.mp same.symm
    obtain ⟨t, f, g, newest, cores⟩ := shows.newest e' found'
    exact ⟨t, f, g, newest.cons other, cores.trans eq⟩
  absent unbounded none := by
    rw [none, Option.map_none] at same
    exact (shows.absent unbounded (Option.map_eq_none_iff.mp same.symm)).cons other

theorem Filed.step {blake3 : Bytes → String} {tasks : T → Task} [DecidableEq T] {now : UInt64}
    (filed : Filed layout config w h)
    (allowed : entriesRule blake3 layout config (tasks t) (h.own t) op) :
    Filed layout config (act layout now op w).2 (⟨t, op, (act layout now op w).1⟩ :: h) where
  stored key := by
    have shows := filed.stored key
    cases changed layout now op w key with
    | kept same other => exact shows.kept same other
    | @inserted e found operation =>
      subst operation
      refine ⟨fun e' found' => ⟨t, e, h, .insert, ?_⟩, fun _ none => ?_⟩
      · rw [found] at found'
        rw [Option.some.inj found']
      · rw [found] at none
        cases none
    | removed gone operation =>
      subst operation
      refine ⟨fun e found => ?_, fun unbounded _ => absurd unbounded allowed⟩
      rw [gone] at found
      cases found
    | @expired e limit gone was late operation =>
      have clock : ⟨.nowMs, limit⟩ ∈ h.own t := by
        rcases operation with rfl | rfl
        · exact allowed
        · exact allowed
      have other : ∀ f, op ≠ .entriesInsert key f := by
        rcases operation with rfl | rfl
        · simp
        · simp
      refine ⟨fun e found => ?_, fun _ _ u f g newest => ?_⟩
      · rw [gone] at found
        cases found
      · rcases newest.of_cons with ⟨same, -, -⟩ | ⟨-, older⟩
        · exact absurd same (other f)
        · obtain ⟨v, f', g', newest', cores⟩ := shows.newest e was
          obtain ⟨-, rfl, -⟩ := older.unique newest'
          have same : f.expiresAtMs = e.expiresAtMs := congrArg Prod.snd cores
          exact ⟨t, limit, List.mem_cons_of_mem _ (History.mem_own.mp clock), same ▸ late⟩
  seen := by
    refine filed.seen.cons fun u key found same => ?_
    cases same
    exact filed.stored key

end

section
variable {T : Type} {blake3 : Bytes → String} {layout : Layout} {config : LocalBackendConfig}
variable {rounds : Nat} {tasks : T → Task} {h : History T} {k : String}

/-- The latest `put` on the key, in the order of the insertions, and until when its value is valid. -/
def LatestPut (tasks : T → Task) (k : String) (b : Bytes) (deadline : UInt64) (h : History T) : Prop :=
  ∃ u ttl now e g, tasks u = .call (.put k b ttl) ∧ Newest (entryKey k) u e g h ∧
    core e = (b, deadline) ∧ ⟨u, .nowMs, now⟩ ∈ g ∧ deadline = expiresAt now ttl

variable [DecidableEq T]

/-- Under the key of an entry, the newest insertion is that of the latest put. -/
theorem latestPut_of_newest
    (lawful : Lawful (fun t => entriesRule blake3 layout config (tasks t)) h) {u : T} {e : Entry}
    {g : History T} (newest : Newest (entryKey k) u e g h) :
    LatestPut tasks k e.bytes e.expiresAtMs h := by
  obtain ⟨inserts, -, -⟩ := lawful _ _ newest.suffix
  generalize same : entryKey k = key at inserts
  generalize task : tasks u = call at inserts
  generalize own : g.own u = done at inserts
  cases inserts with
  | @put k' v ttl now seq _ clock =>
    obtain rfl : k = k' := entryKey_inj same
    rw [← own] at clock
    exact ⟨u, ttl, now, _, g, task, newest, rfl, History.mem_own.mp clock, rfl⟩
  | bump incremented => exact absurd same (entryKey_ne_generationKey blake3 k _)

private theorem filed_preserved : PreservesLawful (machine layout T) Restriction.none
    (fun t => entriesRule blake3 layout config (tasks t)) (Filed layout config) := by
  intro t op now w h r u lawful filed allowed _ performed
  have result : act layout now op w = (r, u) := by
    simp only [machine] at performed
    split at performed
    · cases performed
    · exact Option.some.inj performed
  obtain rfl : (act layout now op w).1 = r := congrArg Prod.fst result
  obtain rfl : (act layout now op w).2 = u := congrArg Prod.snd result
  exact filed.step allowed

omit [DecidableEq T] in
private theorem filed_initial : Filed layout config (initial blake3 layout config rounds tasks).world
    (initial blake3 layout config rounds tasks).history where
  stored key := by
    constructor
    · intro e found
      cases found
    · intro _ _ t e g newest
      exact absurd newest.suffix (by simp [initial])
  seen := History.always_nil

/-- In every run of overlapping calls and cleanup rounds, a `get` that returns a value has read, at one
moment of its own, the value of the latest `put` on its key, which was valid by the clock of the `get`.
Without a limit, a `get` that returns nothing has found that there was no such `put`, or that some call
had already read a clock at which its value was no longer valid. -/
theorem gets_read_latest_put {T : Type} [DecidableEq T] {blake3 : Bytes → String} {layout : Layout}
    {config : LocalBackendConfig} {rounds : Nat} {tasks : T → Task}
    {d : Config T Op Op.Res World Reply}
    (run : Reaches (machine layout T) Restriction.none (initial blake3 layout config rounds tasks) d)
    {t : T} {k : String} {value : Option Bytes}
    (returned : d.returned t = some (some ⟨.get k, .ok value⟩)) :
    ∃ found moment now, ⟨t, .entriesGet (entryKey k), found⟩ :: moment <:+ d.history ∧
      ⟨t, .nowMs, now⟩ ∈ moment ∧
      (∀ b, value = some b → ∃ deadline, LatestPut tasks k b deadline moment ∧ now < deadline) ∧
      (config.maxEntries = none → value = none → ∀ b deadline, LatestPut tasks k b deadline moment →
        ∃ u late, ⟨u, .nowMs, late⟩ ∈ moment ∧ deadline ≤ late) := by
  obtain ⟨lawful, filed, obeys⟩ :=
    run.lawful filed_preserved (fun t => obeys_entries (tasks t)) rfl filed_initial
  have answered := (run.obeys (obeys_initial tasks)).returned (Config.returned_eq_some.mp returned)
  have task := task_of_answered answered
  have looked := obeys.returned (Config.returned_eq_some.mp returned)
  rw [task] at looked
  obtain ⟨now, found, value', same, ⟨later, own⟩, rfl⟩ := looked
  cases same
  obtain ⟨moment, read, before⟩ := History.exists_suffix_of_own own.symm
  have clock : ⟨t, .nowMs, now⟩ ∈ moment := by
    apply History.mem_own.mp
    rw [before]
    exact List.mem_singleton_self _
  have lawful' := lawful.suffix ((List.suffix_cons _ _).trans read)
  have shows := filed.seen _ _ read t _ _ rfl
  refine ⟨found, moment, now, read, clock, fun b hit => ?_, fun unbounded miss b deadline latest => ?_⟩
  · obtain ⟨e, rfl, alive⟩ := Option.bind_eq_some_iff.mp hit
    split at alive
    · next early =>
      obtain ⟨u, f, g, newest, cores⟩ := shows.newest e rfl
      have latest := latestPut_of_newest lawful' newest
      obtain ⟨bytes, deadline⟩ := Prod.mk.inj cores
      rw [bytes, deadline, Option.some.inj alive] at latest
      exact ⟨e.expiresAtMs, latest, early⟩
    · cases alive
  · obtain ⟨u, ttl, putAt, e, g, -, newest, cores, -⟩ := latest
    have deadline_eq : e.expiresAtMs = deadline := congrArg Prod.snd cores
    cases found with
    | none =>
      obtain ⟨v, late, read, past⟩ := shows.absent unbounded rfl u e g newest
      exact ⟨v, late, read, deadline_eq ▸ past⟩
    | some f =>
      obtain ⟨u', f', g', newest', cores'⟩ := shows.newest f rfl
      obtain ⟨-, rfl, -⟩ := newest.unique newest'
      have same : e.expiresAtMs = f.expiresAtMs := congrArg Prod.snd cores'
      simp only [Option.bind_some] at miss
      split at miss
      · cases miss
      · next late => exact ⟨t, now, clock, by rw [← deadline_eq, same]; exact UInt64.not_lt.mp late⟩

end

/-- Two puts on a key, and a read of it. -/
def twoPuts : Fin 3 → Task
  | 0 => .call (.put "k" [1] (.fromSecs 1))
  | 1 => .call (.put "k" [2] (.fromSecs 1))
  | 2 => .call (.get "k")

/-- The first put inserts after the second one. -/
theorem later_insertion_read : ∃ d : Config (Fin 3) Op Op.Res World Reply,
    d.returned 2 = some (some ⟨.get "k", .ok (some [1])⟩) ∧
    ∃ moment deadline, moment <:+ d.history ∧ LatestPut twoPuts "k" [1] deadline moment := by
  obtain ⟨d, run, seen⟩ := play_observed (M := machine sampleLayout (Fin 3)) (A := Restriction.none)
    (c := initial Sample.hash sampleLayout {} 2 twoPuts)
    ([(0, 5), (1, 6), (1, 7), (1, 7), (0, 8), (0, 8)] ++ List.replicate 4 (2, 9))
    (fun d => decide (d.returned 2 = some (some ⟨.get "k", .ok (some [1])⟩)))
    (by decide +kernel)
  have returned := of_decide_eq_true seen
  obtain ⟨found, moment, now, read, -, hit, -⟩ := gets_read_latest_put run returned
  obtain ⟨deadline, latest, -⟩ := hit [1] rfl
  exact ⟨d, returned, moment, deadline, (List.suffix_cons _ _).trans read, latest⟩

end RbatisCache.LocalBackend.Concurrent
