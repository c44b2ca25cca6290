import RbatisCache.Interleaving.Linearization
import RbatisCache.Spi.LocalBackend.Overlap

/-! Overlapping calls of the in-process backend, as calls of the ideal store. A `put` takes effect when it
inserts, a `get` when it first looks, a bump when it increments and a `generation` when it finds no counter
or loads one. -/
namespace RbatisCache.LocalBackend.Concurrent
open Interleaving

/-- What a call is answered, at the operation that decides it. -/
def point (task : Task) (done : Done) : Sigma Op.Res → Option (Sigma BackendOp.Res)
  | ⟨.entriesGet key, found⟩ =>
    match task, done with
    | .call (.get k), [⟨.nowMs, now⟩] =>
      if key = entryKey k then
        some ⟨.get k, .ok (found.bind fun e => if now < e.expiresAtMs then some e.bytes else none)⟩
      else none
    | _, _ => none
  | ⟨.entriesInsert _ _, _⟩ =>
    match task with
    | .call (.put k v ttl) => some ⟨.put k v ttl, .ok ()⟩
    | _ => none
  | ⟨.generationsGet _, none⟩ =>
    match task with
    | .call (.generation n) => some ⟨.generation n, .ok 0⟩
    | _ => none
  | ⟨.load _, v⟩ =>
    match task with
    | .call (.generation n) => some ⟨.generation n, .ok v⟩
    | _ => none
  | ⟨.fetchAdd _, old⟩ =>
    match task with
    | .call (.bumpGeneration n) => some ⟨.bumpGeneration n, .ok (saturatingAdd old 1)⟩
    | _ => none
  | _ => none

/-- What the shards and the counters hold. -/
def World.store (layout : Layout) (w : World) : Store :=
  ⟨fun k => (w.find layout (entryKey k)).map Entry.bytes, w.readGeneration⟩

section
variable {blake3 : Bytes → String} {layout : Layout} {config : LocalBackendConfig} {task : Task}
variable {done : Done} {op : Op} {w : World} {now : UInt64}

/-! ### What an operation does to the store -/

private theorem readGeneration_quiet (quiet : Quiet op) :
    (act layout now op w).2.readGeneration = w.readGeneration := by
  obtain ⟨shard, seq, result⟩ := act_quiet layout now w quiet
  rw [result]
  rfl

/-- An operation that inserts no entry of a digest only loses some. -/
theorem content_shrinks (other : ∀ k e, op ≠ .entriesInsert (entryKey k) e) {k : String} {b : Bytes}
    (there : ((act layout now op w).2.store layout).content k = some b) :
    (w.store layout).content k = some b := by
  obtain ⟨e, found, rfl⟩ := Option.map_eq_some_iff.mp there
  cases changed layout now op w (entryKey k) with
  | kept same _ =>
    rw [found, Option.map_some] at same
    obtain ⟨e', found', cores⟩ := Option.map_eq_some_iff.mp same.symm
    have bytes : e'.bytes = e.bytes := congrArg Prod.fst cores
    exact Option.map_eq_some_iff.mpr ⟨e', found', bytes⟩
  | inserted _ operation => exact absurd operation (other k _)
  | removed gone _ =>
    rw [gone] at found
    cases found
  | expired gone _ _ _ =>
    rw [gone] at found
    cases found

private theorem shrinks_quiet (quiet : Quiet op) (other : ∀ k e, op ≠ .entriesInsert (entryKey k) e) :
    (w.store layout).Shrinks ((act layout now op w).2.store layout) :=
  ⟨content_shrinks other, readGeneration_quiet quiet⟩

/-- An insertion for a digest is a put. -/
theorem put_shrinks (k : String) {e : Entry} {v : Bytes} (bytes : e.bytes = v) :
    ((w.store layout).put k v).Shrinks
      ((act layout now (.entriesInsert (entryKey k) e) w).2.store layout) where
  content := by
    intro k' b there
    obtain ⟨e', found, rfl⟩ := Option.map_eq_some_iff.mp there
    cases changed layout now (.entriesInsert (entryKey k) e) w (entryKey k') with
    | kept same other =>
      have ne : k' ≠ k := by
        rintro rfl
        exact other e rfl
      rw [Store.put_content_ne _ _ ne]
      rw [found, Option.map_some] at same
      obtain ⟨e'', found'', cores⟩ := Option.map_eq_some_iff.mp same.symm
      have bytes : e''.bytes = e'.bytes := congrArg Prod.fst cores
      exact Option.map_eq_some_iff.mpr ⟨e'', found'', bytes⟩
    | inserted found' operation =>
      obtain ⟨same, rfl⟩ : entryKey k = entryKey k' ∧ e = _ := by simpa using operation
      obtain rfl := entryKey_inj same
      rw [found'] at found
      rw [← Option.some.inj found, bytes]
      exact Store.put_content_self _ _ _
    | removed _ operation => cases operation
    | expired _ _ _ operation => rcases operation with operation | operation <;> cases operation
  counter := by
    rw [Store.put_counter]
    exact readGeneration_quiet trivial


private theorem effect_of_look (k : String) (now' : UInt64) : Store.Serves (.get k)
    (.ok ((w.find layout (entryKey k)).bind fun e => if now' < e.expiresAtMs then some e.bytes else none))
    (w.store layout) (w.store layout) := by
  refine ⟨?_, .refl _⟩
  cases found : w.find layout (entryKey k) with
  | none => exact .inl rfl
  | some e =>
    by_cases early : now' < e.expiresAtMs
    · refine .inr ?_
      simp [World.store, found, early]
    · refine .inl ?_
      simp [early]

end

section
variable {T : Type} [DecidableEq T] {blake3 : Bytes → String} {layout : Layout}
variable {config : LocalBackendConfig} {rounds : Nat} {tasks : T → Task}

/-- What the counters and the entries have to do with a call that has done `done`. -/
def bothRules (blake3 : Bytes → String) (layout : Layout) (config : LocalBackendConfig) (task : Task)
    (done : Done) (op : Op) : Prop :=
  task.rule done op ∧ entriesRule blake3 layout config task done op

private theorem effects_of_points : Effects (machine layout T) (FewBumps tasks)
    (fun t => bothRules blake3 layout config (tasks t)) (Counted tasks) (fun t => point (tasks t))
    Store.Serves Store.Shrinks (World.store layout) := by
  intro t op now w h r u lawful counted ⟨allowed, files⟩ few performed
  have result : act layout now op w = (r, u) := by
    simp only [machine] at performed
    split at performed
    · cases performed
    · exact Option.some.inj performed
  obtain rfl : (act layout now op w).1 = r := congrArg Prod.fst result
  obtain rfl : (act layout now op w).2 = u := congrArg Prod.snd result
  dsimp only
  generalize own : h.own t = done at allowed files
  have seen {op : Op} {r : op.Res} (member : ⟨op, r⟩ ∈ done) : ⟨t, op, r⟩ ∈ h :=
    History.mem_own.mp (own ▸ member)
  cases op with
  | entriesGet key =>
    change Effect _ _ (point (tasks t) done ⟨.entriesGet key, w.find layout key⟩) _ (w.store layout)
    unfold point
    dsimp only
    split
    · next k now' _ =>
      split
      · next same =>
        subst same
        exact effect_of_look k now'
      · exact .refl _
    · exact .refl _
  | entriesInsert key e =>
    have inserts := files.1
    generalize tasks t = task at inserts
    cases inserts with
    | put clock => exact ⟨rfl, put_shrinks _ rfl⟩
    | @bump n counter old seq _ incremented =>
      have apart : ∀ k e, Op.entriesInsert (generationKey blake3 n)
          ⟨toLeBytes (saturatingAdd old 1), u64Max, seq, seq, 0⟩ ≠ .entriesInsert (entryKey k) e :=
        fun k e same => entryKey_ne_generationKey blake3 k n (Op.entriesInsert.inj same).1.symm
      exact shrinks_quiet trivial apart
  | generationsGet n =>
    obtain ⟨-, task⟩ := allowed
    rw [task]
    change Effect _ _ (point _ done ⟨.generationsGet n, w.generations.lookup n⟩) _ (w.store layout)
    cases lookup : w.generations.lookup n with
    | none => exact ⟨congrArg _ (World.readGeneration_of_absent lookup).symm, .refl _⟩
    | some counter => exact Store.Shrinks.refl _
  | load counter =>
    obtain ⟨n, rfl, task⟩ := allowed
    have lookup := counted.found t n counter (seen (List.mem_singleton_self _))
    rw [task]
    exact ⟨congrArg _ (World.readGeneration_of_lookup lookup).symm, .refl _⟩
  | generationsEntry n =>
    refine ⟨content_shrinks (by simp), funext fun m => ?_⟩
    exact counted.owned.readGeneration_entry n m
  | fetchAdd counter =>
    obtain ⟨n, rfl, task⟩ := allowed
    have lookup := counted.entered t n counter (seen (List.mem_singleton_self _))
    rw [task]
    have old : w.counters counter = w.readGeneration n :=
      (World.readGeneration_of_lookup lookup).symm
    refine ⟨congrArg (fun c => Except.ok (saturatingAdd c 1)) old, content_shrinks (by simp), ?_⟩
    funext m
    by_cases same : m = n
    · subst same
      exact (World.readGeneration_increment_self lookup).trans
        (Store.bump_counter_self (w.store layout) m).symm
    · exact (counted.owned.readGeneration_increment_ne lookup same).trans
        (Store.bump_counter_ne (w.store layout) same).symm
  | nowMs | nextSeq | entriesRemoveIf | entriesTouch | entriesRemove | shardLen | shardRetain
  | shardIter | shardLower | spin => exact shrinks_quiet trivial (by simp)


/-! ### Every call has a point -/

variable {done : Done} {now : UInt64} (task : Task)

/-- The eviction has no points. -/
theorem ensures_sweep {α : Type} {p : Code α} (only : p.Only (Sweeps config now)) :
    p.Ensures (fun _ after => taken (point task) after = taken (point task) done) done := by
  refine only.ensures (fun later op r sweeps same => ?_) rfl
  have none : point task later ⟨op, r⟩ = none := by
    cases op with
    | shardLen | shardRetain | shardIter | shardLower | entriesRemove | spin => rfl
    | nowMs | generationsGet | generationsEntry | load | fetchAdd | nextSeq | entriesGet
    | entriesRemoveIf | entriesTouch | entriesInsert => exact sweeps.elim
  rw [taken, none]
  exact same

/-- The insertion of an entry is the point of a put. -/
theorem ensures_insertEntry {key : String} {bytes : Bytes} {expiresAtMs : UInt64}
    {c : Option (Sigma BackendOp.Res)}
    (inserts : ∀ after e, point task after ⟨.entriesInsert key e, ()⟩ = c) :
    (insertEntry layout config rounds key bytes now expiresAtMs).Ensures
      (fun _ after => taken (point task) after = c.toList ++ taken (point task) done) done := by
  refine (ensures_sweep task only_evict).andThen fun _ after same _ =>
    ⟨trivial, fun seq => ⟨trivial, fun _ => ?_⟩⟩
  change (point task _ _).toList ++ taken (point task) after = _
  rw [inserts, same]

private theorem taken_look (k : String) (now : UInt64) (found : Option Entry) :
    taken (point (.call (.get k))) [⟨.entriesGet (entryKey k), found⟩, ⟨.nowMs, now⟩] =
      [⟨.get k, .ok (found.bind fun e => if now < e.expiresAtMs then some e.bytes else none)⟩] := by
  simp [taken, point]

/-- When a call returns it has taken its point, with the answer that it returns. -/
theorem ensures_taken : (task.program blake3 layout config rounds).Ensures
    (fun reply done => taken (point task) done = reply.toList) [] := by
  cases task with
  | prune =>
    refine ⟨trivial, fun now => ?_⟩
    have sweeps : (entriesRetain layout now).Only (Sweeps config now) := only_retains
    exact (ensures_sweep .prune sweeps).andThen fun _ _ same _ => same
  | call op =>
    cases op with
    | get key =>
      refine ⟨trivial, fun now => ⟨trivial, fun found => ⟨trivial, fun again => ?_⟩⟩⟩
      have look := taken_look key now found
      cases again with
      | none => exact ⟨trivial, fun _ => look⟩
      | some entry =>
        simp only [Prog.pure_eq, Prog.ret_bind, Prog.bind_eq]
        split
        · exact ⟨trivial, fun _ => ⟨trivial, fun _ => look⟩⟩
        · exact ⟨trivial, fun _ => look⟩
    | put key value ttl =>
      refine ⟨trivial, fun now => ?_⟩
      refine Prog.Obeys.bind (Prog.Obeys.bind ?_)
      change Prog.Obeys _ _ ((insertEntry layout config rounds _ _ now _).bind _) _
      refine (ensures_insertEntry (.call (.put key value ttl)) fun _ _ => rfl).andThen ?_
      exact fun _ after took _ => took
    | generation n =>
      refine ⟨trivial, fun found => ?_⟩
      cases found with
      | none => rfl
      | some counter => exact ⟨trivial, fun v => rfl⟩
    | bumpGeneration n =>
      refine ⟨trivial, fun counter => ⟨trivial, fun old => ⟨trivial, fun now => ?_⟩⟩⟩
      refine Prog.Obeys.bind (Prog.Obeys.bind ?_)
      change Prog.Obeys _ _ ((insertEntry layout config rounds _ _ now _).bind _) _
      refine (ensures_insertEntry (.call (.bumpGeneration n)) fun _ _ => rfl).andThen ?_
      exact fun _ after took _ => took

private theorem obeys_bothRules : (task.program blake3 layout config rounds).Obeys
    (bothRules blake3 layout config task) (fun reply done => taken (point task) done = reply.toList) [] := by
  have counters : (task.program blake3 layout config rounds).Obeys task.rule (Answered task) [] :=
    obeys_program task
  have both := (counters.and (obeys_entries task)).and (ensures_taken task)
  exact (both.mono fun _ _ all => all.2).weaken fun _ _ all => all.1

end

section
variable {T : Type} [DecidableEq T] {blake3 : Bytes → String} {layout : Layout}
variable {config : LocalBackendConfig} {rounds : Nat} {tasks : T → Task}

/-- What calls have returned. -/
def answers (d : Config T Op Op.Res World Reply) (t : T) : Option (Sigma BackendOp.Res) :=
  (d.returned t).join

/-- However calls of the backend and rounds of its cleanup overlap, in every strategy and with every
limit, the calls take effect one after the other, each at one moment between its begin and its end: in
that order they are calls of an ideal store, which may lose entries and whose counters count the bumps. -/
theorem overlapping_calls_linearize {d : Config T Op Op.Res World Reply}
    (run : Reaches (machine layout T) (FewBumps tasks) (initial blake3 layout config rounds tasks) d) :
    ∃ order, Linearizes Store.Serves Store.Shrinks .empty (d.world.store layout) d.history (answers d)
      order := by
  have preserves : PreservesLawful (machine layout T) (FewBumps tasks)
      (fun t => bothRules blake3 layout config (tasks t)) (Counted tasks) :=
    fun t op now w h r u lawful counted allowed few performed =>
      counted_preserved t op now w h r u (fun e s hs => (lawful e s hs).1) counted allowed.1 few performed
  have obeys : (initial blake3 layout config rounds tasks).Obeys
      (fun t => bothRules blake3 layout config (tasks t))
      fun t reply done => taken (point (tasks t)) done = reply.toList :=
    fun t => obeys_bothRules (tasks t)
  refine ⟨_, run.linearizes preserves effects_of_points obeys rfl counted_initial fun t c told => ?_⟩
  have returned : d.tasks t = .ret (some c) :=
    Config.returned_eq_some.mp (Option.join_eq_some_iff.mp told)
  exact (run.obeys obeys).returned returned

end

/-- Two puts that overlap and a read of the one that has inserted last. -/
theorem overlapping_puts_linearize : ∃ d : Config (Fin 3) Op Op.Res World Reply,
    d.returned 2 = some (some ⟨.get "k", .ok (some [1])⟩) ∧ ∃ order,
    Linearizes Store.Serves Store.Shrinks .empty (d.world.store sampleLayout) d.history (answers d)
      order := by
  obtain ⟨d, run, seen⟩ := play_observed (M := machine sampleLayout (Fin 3)) (A := FewBumps twoPuts)
    (c := initial Sample.hash sampleLayout {} 2 twoPuts)
    ([(0, 5), (1, 6), (1, 7), (1, 7), (0, 8), (0, 8)] ++ List.replicate 4 (2, 9))
    (fun d => decide (d.returned 2 = some (some ⟨.get "k", .ok (some [1])⟩)))
    (by decide +kernel)
  exact ⟨d, of_decide_eq_true seen, overlapping_calls_linearize run⟩

end RbatisCache.LocalBackend.Concurrent
