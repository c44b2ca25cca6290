import RbatisCache.Interleaving.Counting
import RbatisCache.Interleaving.Protocol
import RbatisCache.Spi.LocalBackend.Concurrent
import RbatisCache.Spi.Sample

/-! The generations of the in-process backend under concurrent calls. A counter is created once, belongs
to one namespace and is only changed by the increments of the bumps of that namespace. -/
namespace RbatisCache.LocalBackend.Concurrent
open Interleaving
open Interleaving.Prog (bind_eq perform_bind pure_eq only_call only_ret)

abbrev History (T : Type) := Interleaving.History T Op Op.Res

abbrev Done := List (Sigma Op.Res)

section
variable {T : Type} (tasks : T → Task)

/-- An increment of the counter by a bump of the namespace. -/
def isBump (nameSpace : String) (e : Event T Op Op.Res) : Bool :=
  match e.op with
  | .fetchAdd _ => decide (tasks e.task = .call (.bumpGeneration nameSpace))
  | _ => false

/-- The counter increments so far. -/
def bumps (nameSpace : String) (h : History T) : Nat := h.countP (isBump tasks nameSpace)

/-- The number that a bump returns, at the moment of its increment. -/
def Bumped (nameSpace : String) (e : Event T Op Op.Res) (n : Nat) : Prop :=
  ∃ t counter old, e = ⟨t, .fetchAdd counter, old⟩ ∧ tasks t = .call (.bumpGeneration nameSpace) ∧
    n = (saturatingAdd old 1).toNat

/-- The number that a `generation` call returns, at the moment that decides it. -/
inductive Read (nameSpace : String) : Event T Op Op.Res → Nat → Prop
  | absent (t : T) : Read nameSpace ⟨t, .generationsGet nameSpace, none⟩ 0
  | loaded (t : T) (counter : CounterId) (v : UInt64)
      (task : tasks t = .call (.generation nameSpace)) :
      Read nameSpace ⟨t, .load counter, v⟩ v.toNat

def Task.bumped : Task → Option String
  | .call (.bumpGeneration n) => some n
  | _ => none

/-- Fewer than 2^64 bumps of one namespace happen. -/
def FewBumps : Restriction T Op Op.Res UInt64 World := fun t op _ _ h =>
  (∃ counter, op = .fetchAdd counter) → ∀ n ∈ (tasks t).bumped, bumps tasks n h + 1 < 2 ^ 64

instance (t : T) (op : Op) (now : UInt64) (w : World) (h : History T) :
    Decidable (FewBumps tasks t op now w h) :=
  match op with
  | .fetchAdd counter =>
    decidable_of_iff (∀ n ∈ (tasks t).bumped, bumps tasks n h + 1 < 2 ^ 64)
      ⟨fun few _ => few, fun few => few ⟨counter, rfl⟩⟩
  | .nowMs | .generationsGet _ | .generationsEntry _ | .load _ | .nextSeq | .entriesGet _
  | .entriesRemoveIf _ _ | .entriesTouch _ | .entriesInsert _ _ | .entriesRemove _ | .shardLen _
  | .shardRetain _ _ | .shardIter _ | .shardLower _ _ | .spin => .isTrue (by simp [FewBumps])

end

/-! ### What a call does with the counters -/

/-- Operations on neither the generation map nor the counters. -/
def Quiet : Op → Prop
  | .generationsGet _ | .generationsEntry _ | .load _ | .fetchAdd _ => False
  | _ => True

def Task.rule (task : Task) (done : Done) : Op → Prop
  | .generationsGet n => done = [] ∧ task = .call (.generation n)
  | .load counter => ∃ n, done = [⟨.generationsGet n, some counter⟩] ∧ task = .call (.generation n)
  | .generationsEntry n => done = [] ∧ task = .call (.bumpGeneration n)
  | .fetchAdd counter => ∃ n, done = [⟨.generationsEntry n, counter⟩] ∧
      task = .call (.bumpGeneration n)
  | _ => True

/-- How a call has come by the number it returns. -/
def Answered : Task → Reply → Done → Prop
  | .call (.generation n), reply, done => ∃ v, reply = some ⟨.generation n, .ok v⟩ ∧
      ((∃ counter, ⟨.load counter, v⟩ ∈ done) ∨ v = 0 ∧ ⟨.generationsGet n, none⟩ ∈ done)
  | .call (.bumpGeneration n), reply, done => ∃ counter old,
      reply = some ⟨.bumpGeneration n, .ok (saturatingAdd old 1)⟩ ∧
        [⟨.fetchAdd counter, old⟩, ⟨.generationsEntry n, counter⟩] <:+ done
  | .call (.get k), reply, _ => ∃ r, reply = some ⟨.get k, r⟩
  | .call (.put k v ttl), reply, _ => ∃ r, reply = some ⟨.put k v ttl, r⟩
  | .prune, reply, _ => reply = none

section
variable {blake3 : Bytes → String} {layout : Layout} {config : LocalBackendConfig} {rounds : Nat}

private theorem only_perform {op : Op} (quiet : Quiet op) :
    (Prog.perform op : Code op.Res).Only Quiet :=
  ⟨quiet, fun _ => trivial⟩

private theorem only_inTurn {β : Type} {visit : Nat → Code β}
    (quiet : ∀ shard, (visit shard).Only Quiet)
    (shards : List Nat) : (inTurn visit shards).Only Quiet := by
  induction shards with
  | nil => trivial
  | cons shard rest ih => exact (quiet shard).bind fun b => ih.bind fun bs => trivial

private theorem only_eachShard {β : Type} {visit : Nat → Code β}
    (quiet : ∀ shard, (visit shard).Only Quiet) :
    (eachShard layout visit).Only Quiet :=
  only_inTurn quiet _

private theorem only_entriesLen : (entriesLen layout).Only Quiet :=
  Prog.Only.bind (only_eachShard fun _ => only_perform trivial) fun _ => trivial

private theorem only_entriesRetain (now : UInt64) : (entriesRetain layout now).Only Quiet :=
  Prog.Only.bind (only_eachShard fun _ => only_perform trivial) fun _ => trivial

private theorem only_entriesIter : (entriesIter layout).Only Quiet :=
  Prog.Only.bind (only_eachShard fun _ => only_perform trivial) fun _ => trivial

private theorem only_entriesLower (least : Nat) : (entriesLower layout least).Only Quiet :=
  Prog.Only.bind (only_eachShard fun _ => only_perform trivial) fun _ => trivial

private theorem only_pickLfu : (pickLfu layout).Only Quiet := only_entriesIter.bind fun _ => trivial

private theorem only_pickVictim (strategy : EvictionStrategy) :
    (pickVictim layout strategy).Only Quiet := by
  cases strategy with
  | fifo => exact only_entriesIter.bind fun _ => trivial
  | lru => exact only_entriesIter.bind fun _ => trivial
  | lfu =>
    refine only_entriesIter.bind fun entries => ?_
    split
    · exact only_pickLfu
    · exact (only_entriesLower _).bind fun _ => only_pickLfu

private theorem only_evictLoop (max : Nat) : (evictLoop layout config max rounds).Only Quiet := by
  induction rounds with
  | zero => exact ⟨trivial, fun _ => trivial⟩
  | succ rounds ih =>
    refine only_entriesLen.bind fun len => ?_
    split
    · trivial
    · refine (only_pickVictim _).bind fun victim => ?_
      split
      · exact ⟨trivial, fun _ => ih⟩
      · trivial

private theorem only_evictIfNeeded (now : UInt64) :
    (evictIfNeeded layout config rounds now).Only Quiet := by
  unfold evictIfNeeded
  split
  · trivial
  · refine only_entriesLen.bind fun len => ?_
    split
    · trivial
    · exact (only_entriesRetain now).bind fun _ => only_evictLoop _

private theorem only_insertEntry (key : String) (bytes : Bytes) (now expiresAtMs : UInt64) :
    (insertEntry layout config rounds key bytes now expiresAtMs).Only Quiet :=
  (only_evictIfNeeded now).bind fun _ => ⟨trivial, fun _ => ⟨trivial, fun _ => trivial⟩⟩

private theorem only_get (key : String) : (get key).Only Quiet := by
  refine ⟨trivial, fun now => ⟨trivial, fun first => ⟨trivial, fun second => ?_⟩⟩⟩
  match second with
  | none => exact ⟨trivial, fun _ => trivial⟩
  | some entry =>
    simp only [pure_eq, Prog.ret_bind]
    split
    · exact ⟨trivial, fun _ => ⟨trivial, fun _ => trivial⟩⟩
    · exact ⟨trivial, fun _ => trivial⟩

private theorem only_put (key : String) (value : Bytes) (ttl : Duration) :
    (put layout config rounds key value ttl).Only Quiet :=
  ⟨trivial, fun now => (only_insertEntry _ _ now _).bind fun _ => trivial⟩

private theorem only_prune : (prune layout).Only Quiet := ⟨trivial, fun now => only_entriesRetain now⟩

private theorem rule_of_quiet {task : Task} (done : Done) (op : Op) (quiet : Quiet op) :
    task.rule done op := by
  cases op with
  | generationsGet | generationsEntry | load | fetchAdd => exact quiet.elim
  | _ => trivial

private theorem obeys_quiet {α : Type} {task : Task} {p : Code α} (quiet : p.Only Quiet) (done : Done) :
    p.Obeys task.rule (fun _ after => done <:+ after) done :=
  quiet.obeys (fun done op hq _ => rule_of_quiet done op hq)
    (fun _ _ _ _ suffix => suffix.trans (List.suffix_cons _ _)) (List.suffix_refl _)

theorem obeys_program (task : Task) :
    (task.program blake3 layout config rounds).Obeys task.rule (Answered task) [] := by
  cases task with
  | prune => exact (obeys_quiet only_prune []).andThen fun _ _ _ _ => rfl
  | call op =>
    cases op with
    | get key => exact (obeys_quiet (only_get key) []).andThen fun r _ _ _ => ⟨r, rfl⟩
    | put key value ttl =>
      exact (obeys_quiet (only_put key value ttl) []).andThen fun r _ _ _ => ⟨r, rfl⟩
    | generation n =>
      refine ⟨⟨rfl, rfl⟩, fun found => ?_⟩
      match found with
      | none => exact ⟨0, rfl, .inr ⟨rfl, List.mem_cons_self⟩⟩
      | some counter =>
        exact ⟨⟨n, rfl, rfl⟩, fun v => ⟨v, rfl, .inl ⟨counter, List.mem_cons_self⟩⟩⟩
    | bumpGeneration n =>
      refine ⟨⟨rfl, rfl⟩, fun counter => ⟨⟨n, rfl, rfl⟩, fun old => ⟨trivial, fun now => ?_⟩⟩⟩
      refine Prog.Obeys.bind (Prog.Obeys.bind ?_)
      change Prog.Obeys _ _ ((insertEntry layout config rounds _ _ now _).bind _) _
      refine Prog.Obeys.bind ((obeys_quiet (only_insertEntry _ _ now _) _).mono fun _ after suffix => ?_)
      exact ⟨counter, old, rfl, (List.suffix_cons _ _).trans suffix⟩

theorem obeys_initial {T : Type} [DecidableEq T] (tasks : T → Task) :
    (initial blake3 layout config rounds tasks).Obeys (fun t => (tasks t).rule)
      fun t => Answered (tasks t) :=
  fun t => obeys_program (tasks t)

theorem task_of_answered {task : Task} {op : BackendOp} {r : op.Res} {done : Done}
    (answered : Answered task (some ⟨op, r⟩) done) : task = .call op := by
  cases task with
  | prune => cases answered
  | call op' =>
    cases op' with
    | get k =>
      obtain ⟨r', same⟩ := answered
      cases same
      rfl
    | put k v ttl =>
      obtain ⟨r', same⟩ := answered
      cases same
      rfl
    | generation n =>
      obtain ⟨v, same, -⟩ := answered
      cases same
      rfl
    | bumpGeneration n =>
      obtain ⟨counter, old, same, -⟩ := answered
      cases same
      rfl

end

/-! ### The counters -/

section
variable {T : Type} {tasks : T → Task} {layout : Layout} {w u : World} {h : History T} {t : T}
variable {op : Op} {r : op.Res} {n : String} {now : UInt64}

/-- Every counter belongs to one namespace, of which it counts the increments. -/
structure Counted (tasks : T → Task) (w : World) (h : History T) : Prop where
  owned : w.Owned
  value : ∀ n, (w.readGeneration n).toNat = bumps tasks n h
  entered : ∀ t n counter, ⟨t, .generationsEntry n, counter⟩ ∈ h →
    w.generations.lookup n = some counter
  found : ∀ t n counter, ⟨t, .generationsGet n, some counter⟩ ∈ h →
    w.generations.lookup n = some counter
  numbers : ∀ n, h.Numbers (isBump tasks n) (Bumped tasks n)
  observes : ∀ n, h.Observes (isBump tasks n) (Read tasks n)

/-- The entries are apart from the counters. -/
theorem act_quiet (layout : Layout) (now : UInt64) (w : World) (quiet : Quiet op) :
    ∃ shard seq, (act layout now op w).2 = { w with shard := shard, seq := seq } := by
  cases op with
  | generationsGet | generationsEntry | load | fetchAdd => exact quiet.elim
  | entriesRemoveIf key limit =>
    simp only [act]
    split
    · dsimp only
      split
      · exact ⟨_, _, rfl⟩
      · exact ⟨_, _, rfl⟩
    · exact ⟨_, _, rfl⟩
  | entriesTouch key =>
    simp only [act, World.entriesTouch]
    split
    · exact ⟨_, _, rfl⟩
    · exact ⟨_, _, rfl⟩
  | _ => exact ⟨_, _, rfl⟩

private theorem bumps_cons_of_other
    (other : (∃ counter, op = .fetchAdd counter) → tasks t ≠ .call (.bumpGeneration n)) :
    bumps tasks n (⟨t, op, r⟩ :: h) = bumps tasks n h := by
  rw [bumps, bumps, List.countP_cons_of_neg]
  cases op with
  | fetchAdd counter => simpa [isBump] using other ⟨counter, rfl⟩
  | _ => simp [isBump]

private theorem bumps_cons_of_not (not : ∀ counter, op ≠ .fetchAdd counter) (n : String) :
    bumps tasks n (⟨t, op, r⟩ :: h) = bumps tasks n h :=
  bumps_cons_of_other fun ⟨counter, same⟩ => absurd same (not counter)

private theorem not_bumped (not : ∀ counter, op ≠ .fetchAdd counter) {k : Nat} :
    ¬ Bumped tasks n ⟨t, op, r⟩ k := by
  rintro ⟨s, counter, old, same, -, -⟩
  cases same
  exact not counter rfl

/-- Operations that leave the numbers as they are. -/
theorem Counted.still (counted : Counted tasks w h) (owned : u.Owned)
    (kept : ∀ n counter, w.generations.lookup n = some counter →
      u.generations.lookup n = some counter)
    (value : ∀ n, u.readGeneration n = w.readGeneration n)
    (not : ∀ counter, op ≠ .fetchAdd counter)
    (entered : ∀ n counter, (⟨t, op, r⟩ : Event T Op Op.Res) = ⟨t, .generationsEntry n, counter⟩ →
      u.generations.lookup n = some counter)
    (found : ∀ n counter, (⟨t, op, r⟩ : Event T Op Op.Res) = ⟨t, .generationsGet n, some counter⟩ →
      w.generations.lookup n = some counter)
    (read : ∀ n k, Read tasks n ⟨t, op, r⟩ k → k = bumps tasks n h) :
    Counted tasks u (⟨t, op, r⟩ :: h) where
  owned := owned
  value n := by rw [value, counted.value, bumps_cons_of_not not]
  entered s n counter hm := by
    rcases List.mem_cons.mp hm with same | hm
    · cases same
      exact entered n counter rfl
    · exact kept n counter (counted.entered s n counter hm)
  found s n counter hm := by
    rcases List.mem_cons.mp hm with same | hm
    · cases same
      exact kept n counter (found n counter rfl)
    · exact kept n counter (counted.found s n counter hm)
  numbers n := (counted.numbers n).cons fun k bumped => absurd bumped (not_bumped not)
  observes n := (counted.observes n).cons fun k seen => read n k seen

private theorem not_read (quiet : Quiet op) {k : Nat} : ¬ Read tasks n ⟨t, op, r⟩ k := by
  intro read
  cases read with
  | absent => exact quiet
  | loaded => exact quiet

theorem Counted.quiet (counted : Counted tasks w h) (layout : Layout) (now : UInt64)
    (quiet : Quiet op) : Counted tasks (act layout now op w).2 (⟨t, op, r⟩ :: h) := by
  obtain ⟨shard, seq, result⟩ := act_quiet layout now w quiet
  rw [result]
  refine counted.still ⟨counted.owned.known, counted.owned.owner⟩ (fun _ _ lookup => lookup)
    (fun _ => rfl) ?_ ?_ ?_ ?_
  · rintro counter rfl
    exact quiet
  · intro n counter same
    cases same
    exact quiet.elim
  · intro n counter same
    cases same
    exact quiet.elim
  · exact fun n k read => absurd read (not_read quiet)

/-- A read of the map that finds nothing stands for the number zero. -/
theorem Counted.get (counted : Counted tasks w h) {found : Option CounterId}
    (result : w.generations.lookup n = found) :
    Counted tasks w (⟨t, .generationsGet n, found⟩ :: h) := by
  refine counted.still counted.owned (fun _ _ lookup => lookup) (fun _ => rfl) (by simp) ?_ ?_ ?_
  · intro m counter same
    cases same
  · intro m counter same
    cases same
    exact result
  · intro m k read
    cases read with
    | absent =>
      rw [← counted.value, World.readGeneration_of_absent result]
      rfl

theorem Counted.load (counted : Counted tasks w h) {counter : CounterId}
    (task : tasks t = .call (.generation n)) (lookup : w.generations.lookup n = some counter) :
    Counted tasks w (⟨t, .load counter, w.counters counter⟩ :: h) := by
  refine counted.still counted.owned (fun _ _ lookup => lookup) (fun _ => rfl) (by simp) ?_ ?_ ?_
  · intro m c same
    cases same
  · intro m c same
    cases same
  · intro m k read
    cases read with
    | loaded _ _ _ task' =>
      rw [task] at task'
      cases task'
      rw [← counted.value, World.readGeneration_of_lookup lookup]

theorem Counted.entry (counted : Counted tasks w h) (n : String) :
    Counted tasks (w.generationsEntry n).2 (⟨t, .generationsEntry n, (w.generationsEntry n).1⟩ :: h) := by
  refine counted.still (counted.owned.entry n) (fun _ _ => World.lookup_entry_of_lookup n)
    (counted.owned.readGeneration_entry n) (by simp) ?_ ?_ ?_
  · intro m counter same
    cases same
    exact World.lookup_entry w n
  · intro m counter same
    cases same
  · intro m k read
    cases read

private theorem isBump_fetchAdd {counter : CounterId} {old : UInt64}
    (task : tasks t = .call (.bumpGeneration n)) (m : String) :
    isBump tasks m ⟨t, .fetchAdd counter, old⟩ = decide (m = n) := by
  rw [isBump]
  dsimp only
  rw [task]
  simp [eq_comm]

theorem Counted.increment (counted : Counted tasks w h) {counter : CounterId}
    (task : tasks t = .call (.bumpGeneration n)) (lookup : w.generations.lookup n = some counter)
    (few : bumps tasks n h + 1 < 2 ^ 64) :
    Counted tasks (w.increment counter) (⟨t, .fetchAdd counter, w.counters counter⟩ :: h) := by
  have number : (w.counters counter).toNat = bumps tasks n h := by
    rw [← counted.value, World.readGeneration_of_lookup lookup]
  constructor
  case owned => exact ⟨counted.owned.known, counted.owned.owner⟩
  case value =>
    intro m
    by_cases same : m = n
    · subst same
      rw [World.readGeneration_increment_self lookup, UInt64.toNat_add, counted.value, bumps, bumps,
        List.countP_cons_of_pos (by simp [isBump_fetchAdd task])]
      exact Nat.mod_eq_of_lt few
    · rw [counted.owned.readGeneration_increment_ne lookup same, counted.value, bumps, bumps,
        List.countP_cons_of_neg (by simp [isBump_fetchAdd task, same])]
  case entered =>
    intro s m c hm
    rcases List.mem_cons.mp hm with same | hm
    · cases same
    · exact counted.entered s m c hm
  case found =>
    intro s m c hm
    rcases List.mem_cons.mp hm with same | hm
    · cases same
    · exact counted.found s m c hm
  case numbers =>
    intro m
    refine (counted.numbers m).cons fun k bumped => ?_
    obtain ⟨s, c, old, same, task', rfl⟩ := bumped
    cases same
    rw [task] at task'
    cases task'
    refine ⟨by simp [isBump_fetchAdd task], ?_⟩
    have one : (1 : UInt64).toNat = 1 := rfl
    rw [toNat_saturatingAdd, number, one]
    change min (bumps tasks n h + 1) (2 ^ 64 - 1) = bumps tasks n h + 1
    omega
  case observes =>
    intro m
    refine (counted.observes m).cons fun k read => ?_
    cases read

theorem counted_preserved [DecidableEq T] : PreservesLawful (machine layout T) (FewBumps tasks)
    (fun t => (tasks t).rule) (Counted tasks) := by
  intro t op now w h r u lawful counted allowed few performed
  have result : act layout now op w = (r, u) := by
    simp only [machine] at performed
    split at performed
    · cases performed
    · exact Option.some.inj performed
  obtain rfl : (act layout now op w).1 = r := congrArg Prod.fst result
  obtain rfl : (act layout now op w).2 = u := congrArg Prod.snd result
  cases op with
  | generationsGet n => exact counted.get rfl
  | generationsEntry n => exact counted.entry n
  | load counter =>
    obtain ⟨n, done, task⟩ := allowed
    refine counted.load task (counted.found t n counter (History.mem_own.mp ?_))
    rw [done]
    exact List.mem_singleton_self _
  | fetchAdd counter =>
    obtain ⟨n, done, task⟩ := allowed
    refine counted.increment task (counted.entered t n counter (History.mem_own.mp ?_))
      (few ⟨counter, rfl⟩ n (by rw [task]; rfl))
    rw [done]
    exact List.mem_singleton_self _
  | _ =>
    refine counted.quiet layout now ?_
    trivial

theorem counted_initial {blake3 : Bytes → String} {config : LocalBackendConfig} {rounds : Nat} :
    Counted tasks (initial blake3 layout config rounds tasks).world
      (initial blake3 layout config rounds tasks).history where
  owned := World.owned_new
  value n := rfl
  entered t n counter hm := by cases hm
  found t n counter hm := by cases hm
  numbers n := History.always_nil
  observes n := History.always_nil

/-- A task increments once, right after it has entered the map. -/
theorem increment_of_suffix {counter counter' : CounterId} {old old' : UInt64} {done : Done}
    (first : [⟨.fetchAdd counter, old⟩, ⟨.generationsEntry n, counter⟩] <:+ done)
    (second : [⟨.fetchAdd counter', old'⟩, ⟨.generationsEntry n, counter'⟩] <:+ done) : old = old' := by
  obtain ⟨l, rfl⟩ := first
  obtain ⟨l', same⟩ := second
  cases (List.append_inj' same rfl).2
  rfl

variable [DecidableEq T] {d : Config T Op Op.Res World Reply} {v : UInt64}

/-- A completed bump has incremented the counter. -/
theorem bumped_of_returned (obeys : d.Obeys (fun t => (tasks t).rule) fun t => Answered (tasks t))
    (returned : d.returned t = some (some ⟨.bumpGeneration n, .ok v⟩)) :
    ∃ counter old, ⟨t, .fetchAdd counter, old⟩ ∈ d.history ∧
      Bumped tasks n ⟨t, .fetchAdd counter, old⟩ v.toNat := by
  have answer := obeys.returned (Config.returned_eq_some.mp returned)
  have task := task_of_answered answer
  rw [task] at answer
  obtain ⟨counter, old, same, suffix⟩ := answer
  cases same
  exact ⟨counter, old, History.mem_own.mp (suffix.subset List.mem_cons_self), t, counter, old, rfl,
    task, rfl⟩

/-- A completed `generation` has seen the number that it returns. -/
theorem read_of_returned (obeys : d.Obeys (fun t => (tasks t).rule) fun t => Answered (tasks t))
    (returned : d.returned t = some (some ⟨.generation n, .ok v⟩)) :
    ∃ op r, ⟨t, op, r⟩ ∈ d.history ∧ Read tasks n ⟨t, op, r⟩ v.toNat := by
  have answer := obeys.returned (Config.returned_eq_some.mp returned)
  have task := task_of_answered answer
  rw [task] at answer
  obtain ⟨v', same, ⟨counter, loaded⟩ | ⟨rfl, absent⟩⟩ := answer
  · cases same
    exact ⟨_, _, History.mem_own.mp loaded, .loaded t counter v task⟩
  · cases same
    exact ⟨_, _, History.mem_own.mp absent, .absent t⟩

/-- Each number is that of a bump, which returns it. -/
theorem returned_of_number (lawful : Lawful (fun t => (tasks t).rule) d.history)
    (counted : Counted tasks d.world d.history)
    (obeys : d.Obeys (fun t => (tasks t).rule) fun t => Answered (tasks t)) {k : Nat}
    (positive : 1 ≤ k) (le : k ≤ bumps tasks n d.history) :
    ∃ t, tasks t = .call (.bumpGeneration n) ∧
      (d.Idle t → ∃ v, d.returned t = some (some ⟨.bumpGeneration n, .ok v⟩) ∧ v.toNat = k) := by
  obtain ⟨⟨t, op, r⟩, s, hs, isBump', number⟩ := History.exists_moment positive le
  cases op with
  | fetchAdd counter =>
    have task : tasks t = .call (.bumpGeneration n) := by simpa [isBump] using isBump'
    refine ⟨t, task, fun idle => ?_⟩
    have incremented := History.own_suffix (t := t) hs
    obtain ⟨n', done, task'⟩ := lawful _ _ hs
    obtain rfl : n' = n := by
      rw [task] at task'
      cases task'
      rfl
    rw [History.own_cons_self, done] at incremented
    rcases idle with nothing | ⟨reply, returned⟩
    · rw [nothing] at incremented
      exact absurd (List.suffix_nil.mp incremented) (by simp)
    · have answer := obeys.returned returned
      rw [task] at answer
      obtain ⟨counter', old, rfl, suffix⟩ := answer
      refine ⟨_, Config.returned_eq_some.mpr returned, ?_⟩
      have numbered := (counted.numbers n' _ _ hs _ ⟨t, counter, r, rfl, task, rfl⟩).2
      rw [number, ← numbered, increment_of_suffix suffix incremented]
  | _ => cases isBump'

end

/-- The number of a namespace counts its bumps exactly. -/
structure Exact {T : Type} [DecidableEq T] (layout : Layout) (tasks : T → Task) (n : String)
    (d : Config T Op Op.Res World Reply) : Prop where
  /-- What `generation` would answer now. -/
  counter : (d.world.readGeneration n).toNat = bumps tasks n d.history
  /-- What `generation` calls have answered: the number at a moment at which they were running. -/
  answered : ∀ t v, d.returned t = some (some ⟨.generation n, .ok v⟩) →
    ∃ op r s, ⟨t, op, r⟩ :: s <:+ d.history ∧ v.toNat = bumps tasks n s
  distinct : ∀ s t v, d.returned s = some (some ⟨.bumpGeneration n, .ok v⟩) →
    d.returned t = some (some ⟨.bumpGeneration n, .ok v⟩) → s = t
  bounded : ∀ t v, d.returned t = some (some ⟨.bumpGeneration n, .ok v⟩) →
    1 ≤ v.toNat ∧ v.toNat ≤ bumps tasks n d.history
  /-- Each number is that of a bump, which has returned it or is still running: when none is running,
  the completed ones have returned all numbers. -/
  exhaustive : ∀ k, 1 ≤ k → k ≤ bumps tasks n d.history → ∃ t, tasks t = .call (.bumpGeneration n) ∧
    (d.Idle t → ∃ v, d.returned t = some (some ⟨.bumpGeneration n, .ok v⟩) ∧ v.toNat = k)
  /-- Nothing but an increment by a bump of the namespace changes the number. -/
  untouched : ∀ e t op r, Step (machine layout T) (FewBumps tasks) d e →
    e.history = ⟨t, op, r⟩ :: d.history →
    ((∃ counter, op = .fetchAdd counter) → tasks t ≠ .call (.bumpGeneration n)) →
    e.world.readGeneration n = d.world.readGeneration n

/-- In every run of calls and cleanup rounds with fewer than 2^64 bumps of each namespace, whatever the
entries, their limit and the eviction strategy, generations count bumps exactly. -/
theorem generations_count_bumps {T : Type} [DecidableEq T] {blake3 : Bytes → String} {layout : Layout}
    {config : LocalBackendConfig} {rounds : Nat} {tasks : T → Task}
    {d : Config T Op Op.Res World Reply}
    (run : Reaches (machine layout T) (FewBumps tasks) (initial blake3 layout config rounds tasks) d)
    (n : String) : Exact layout tasks n d := by
  obtain ⟨lawful, counted, obeys⟩ :=
    run.lawful counted_preserved (obeys_initial tasks) rfl counted_initial
  constructor
  case counter => exact counted.value n
  case answered =>
    intro t v returned
    obtain ⟨op, r, event, read⟩ := read_of_returned obeys returned
    obtain ⟨s, hs⟩ := History.exists_suffix_of_mem event
    exact ⟨op, r, s, hs, counted.observes n _ _ hs _ read⟩
  case distinct =>
    intro s t v first second
    obtain ⟨counter, old, event, bumped⟩ := bumped_of_returned obeys first
    obtain ⟨counter', old', event', bumped'⟩ := bumped_of_returned obeys second
    exact (Event.mk.inj ((counted.numbers n).unique event event' bumped bumped')).1
  case bounded =>
    intro t v returned
    obtain ⟨counter, old, event, bumped⟩ := bumped_of_returned obeys returned
    exact (counted.numbers n).bounds event bumped
  case exhaustive =>
    intro k positive le
    exact returned_of_number lawful counted obeys positive le
  case untouched =>
    intro e t op r step event other
    have after := Reaches.lawful (run.tail step) counted_preserved (obeys_initial tasks) rfl
      counted_initial
    have count := after.2.1.value n
    rw [event, bumps_cons_of_other other] at count
    apply UInt64.toNat_inj.mp
    rw [count, counted.value]

/-- Two bumps, a put and a read; there is room for one entry. -/
def sampleTasks : Fin 4 → Task
  | 0 | 1 => .call (.bumpGeneration "ns")
  | 2 => .call (.put "k" [7] (.fromSecs 1))
  | 3 => .call (.generation "ns")

def sampleLayout : Layout := ⟨2, fun key => key.length % 2, fun _ => Nat.mod_lt _ (by decide)⟩

/-- Overlapping bumps whose records displace each other. -/
theorem displaced_records_counted : ∃ d : Config (Fin 4) Op Op.Res World Reply,
    d.returned 0 = some (some ⟨.bumpGeneration "ns", .ok 1⟩) ∧
    d.returned 1 = some (some ⟨.bumpGeneration "ns", .ok 2⟩) ∧
    d.returned 3 = some (some ⟨.generation "ns", .ok 2⟩) ∧
    (d.world.readGeneration "ns").toNat = bumps sampleTasks "ns" d.history := by
  obtain ⟨d, run, seen⟩ := play_observed (M := machine sampleLayout (Fin 4)) (A := FewBumps sampleTasks)
    (c := initial Sample.hash sampleLayout { maxEntries := some 1 } 2 sampleTasks)
    ([(0, 5), (1, 5), (0, 5), (1, 5)] ++ List.replicate 5 (0, 5) ++ List.replicate 14 (1, 6) ++
      List.replicate 14 (2, 7) ++ List.replicate 2 (3, 8))
    (fun d => decide (d.returned 0 = some (some ⟨.bumpGeneration "ns", .ok 1⟩) ∧
      d.returned 1 = some (some ⟨.bumpGeneration "ns", .ok 2⟩) ∧
      d.returned 3 = some (some ⟨.generation "ns", .ok 2⟩)))
    (by decide +kernel)
  obtain ⟨first, second, read⟩ := of_decide_eq_true seen
  exact ⟨d, first, second, read, (generations_count_bumps run "ns").counter⟩

end RbatisCache.LocalBackend.Concurrent
