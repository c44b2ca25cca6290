import RbatisCache.Interleaving.Protocol
import RbatisCache.RbatisInterceptor.SingleFlight

/-! One `complete_load` step by step, next to any number of followers that test the state of the load
and wait for its notification (`singleflight.rs`). The test and the creation of the future are two
steps, and the write is left out while a follower holds the mutex. -/
namespace RbatisCache.SingleFlight
open Interleaving
open Interleaving.Prog (perform bind_eq perform_bind pure_eq)

inductive Op where
  /-- `self.map.get`, which keeps the shard read-locked until `dropEntry`. -/
  | mapGet (digest : String)
  /-- `try_lock` and, if it succeeds, the write. -/
  | tryWrite (load : LoadId) (value : LoadValue)
  | notifyWaiters (load : LoadId)
  | dropEntry
  | mapRemove (digest : String)
  | tryBegin (digest : String)
  | lock (load : LoadId)
  /-- Whether the state is `Loading`. -/
  | test (load : LoadId)
  | unlock (load : LoadId)
  | notified (load : LoadId)
  | awaitNotified (load : LoadId) (seen : Nat)
  deriving DecidableEq

@[reducible] def Op.Res : Op → Type
  | .mapGet _ => Option LoadId
  | .tryBegin _ => LoadRole
  | .test _ => Bool
  | .notified _ => Nat
  | .tryWrite _ _ | .notifyWaiters _ | .dropEntry | .mapRemove _ | .lock _ | .unlock _
  | .awaitNotified _ _ => Unit

instance : ∀ op : Op, DecidableEq op.Res
  | .mapGet _ => inferInstanceAs (DecidableEq (Option LoadId))
  | .tryBegin _ => inferInstanceAs (DecidableEq LoadRole)
  | .test _ => inferInstanceAs (DecidableEq Bool)
  | .notified _ => inferInstanceAs (DecidableEq Nat)
  | .tryWrite _ _ | .notifyWaiters _ | .dropEntry | .mapRemove _ | .lock _ | .unlock _
  | .awaitNotified _ _ => inferInstanceAs (DecidableEq Unit)

structure Shared where
  flight : SingleFlight
  /-- Which mutexes are held. -/
  locked : LoadId → Bool
  /-- The read locks of the shard. -/
  readers : Nat

abbrev Code (α : Type) := Prog Op Op.Res α

def completeLoad (digest : String) (success : Bool) : Code Unit := do
  match ← perform (Op.mapGet digest) with
  | none => return ()
  | some state =>
    perform (Op.tryWrite state (if success then .done else .failed))
    perform (Op.notifyWaiters state)
    perform Op.dropEntry
    perform (Op.mapRemove digest)

/-- `LoadState::wait`. -/
def wait (load : LoadId) : Code Unit := do
  perform (Op.lock load)
  if ← perform (Op.test load) then
    perform (Op.unlock load)
    let seen ← perform (Op.notified load)
    perform (Op.awaitNotified load seen)
  else perform (Op.unlock load)

/-- A query that asks for election and waits if it is a follower. -/
def follow (digest : String) : Code Unit := do
  match ← perform (Op.tryBegin digest) with
  | .leader => return ()
  | .follower state => wait state

/-- The write of `complete_load`. -/
def write (s : SingleFlight) (load : LoadId) (value : LoadValue) : SingleFlight :=
  { s with states := Function.update s.states load ⟨value, (s.states load).notified⟩ }

def notifyWaiters (s : SingleFlight) (load : LoadId) : SingleFlight :=
  let state := s.states load
  { s with states := Function.update s.states load ⟨state.value, state.notified + 1⟩ }

/-- A step, unless it must wait for a lock or a notification; `elapsed` is the end of
`FOLLOWER_WAIT_TIMEOUT`. -/
def act (op : Op) (elapsed : Bool) (s : Shared) : Option (op.Res × Shared) :=
  match op with
  | .mapGet digest =>
    match s.flight.map.lookup digest with
    | none => some (none, s)
    | some load => some (some load, { s with readers := s.readers + 1 })
  | .tryWrite load value =>
    some ((), if s.locked load then s else { s with flight := s.flight.write load value })
  | .notifyWaiters load => some ((), { s with flight := s.flight.notifyWaiters load })
  | .dropEntry => some ((), { s with readers := s.readers - 1 })
  | .mapRemove digest =>
    if s.readers = 0 then some ((), { s with flight := s.flight.removeLoad digest }) else none
  | .tryBegin digest =>
    if s.readers = 0 then
      let (role, flight) := s.flight.tryBeginLoad digest
      some (role, { s with flight := flight })
    else none
  | .lock load =>
    if s.locked load then none
    else some ((), { s with locked := Function.update s.locked load true })
  | .test load => some (decide ((s.flight.states load).value = .loading), s)
  | .unlock load => some ((), { s with locked := Function.update s.locked load false })
  | .notified load => some ((s.flight.states load).notified, s)
  | .awaitNotified load seen =>
    if elapsed ∨ (s.flight.states load).notified ≠ seen then some ((), s) else none

def steps (T : Type) : Machine T Op Op.Res Bool Shared := ⟨fun _ => act⟩

/-- The first load of a digest is in flight; one task completes it, all others ask for election. -/
def starting {T : Type} [DecidableEq T] (digest : String) (success : Bool) (completer : T) :
    Config T Op Op.Res Shared Unit :=
  ⟨⟨(SingleFlight.new.tryBeginLoad digest).2, fun _ => false, 0⟩, [],
    fun t => if t = completer then completeLoad digest success else follow digest⟩

/-- The write and the notification together are what `finishLoad` does at once. -/
theorem finishLoad_eq {s : SingleFlight} {digest : String} {load : LoadId}
    (held : s.map.lookup digest = some load) (success contended : Bool) :
    s.finishLoad digest success contended = (true,
      (if contended then s else s.write load (if success then .done else .failed)).notifyWaiters
        load) := by
  rw [finishLoad, held]
  cases contended with
  | true => rfl
  | false => simp [write, notifyWaiters]

section
variable {T : Type} [DecidableEq T]

/-- A follower that has created its future, has seen the end of the load, or is still going to. -/
def Safe (load : LoadId) (s : Shared) (h : History T Op Op.Res) (t : T) : Prop :=
  (∃ seen, ⟨t, .notified load, seen⟩ ∈ h) ∨ ⟨t, .test load, false⟩ ∈ h ∨
    (∀ loading, ⟨t, .test load, loading⟩ ∉ h) ∧ (s.flight.states load).value ≠ .loading

/-- At `notify_waiters` every follower of the load is safe, and afterwards nobody becomes its follower
while its state is still `Loading`. -/
def InTime : Restriction T Op Op.Res Bool Shared := fun _ op _ s h =>
  match op with
  | .notifyWaiters load => ∀ t digest, ⟨t, .tryBegin digest, .follower load⟩ ∈ h → Safe load s h t
  | .tryBegin digest => ∀ load, s.flight.map.lookup digest = some load →
      (∃ t, ⟨t, .notifyWaiters load, ()⟩ ∈ h) → (s.flight.states load).value ≠ .loading
  | _ => True

/-- What a task has done before each step. -/
def stepRule (digest : String) (completer t : T) (done : List (Sigma Op.Res)) : Op → Prop
  | .mapGet _ | .tryBegin _ => done = []
  | .tryWrite load _ => t = completer ∧ done = [⟨.mapGet digest, some load⟩]
  | .notifyWaiters load => t = completer ∧
      ∃ value, done = [⟨.tryWrite load value, ()⟩, ⟨.mapGet digest, some load⟩]
  | .mapRemove d => t = completer ∧ d = digest
  | .test load => done = [⟨.lock load, ()⟩, ⟨.tryBegin digest, .follower load⟩]
  | .notified load => done = [⟨.unlock load, ()⟩, ⟨.test load, true⟩, ⟨.lock load, ()⟩,
      ⟨.tryBegin digest, .follower load⟩]
  | .awaitNotified load seen => ⟨.notified load, seen⟩ ∈ done
  | _ => True

variable {digest : String} {success elapsed : Bool} {completer t u : T} {load : LoadId}
variable {s s' : Shared} {h : History T Op Op.Res} {op : Op} {r : op.Res}

/-- What `complete_load` has done when it returns. -/
structure Returned (digest : String) (done : List (Sigma Op.Res)) : Prop where
  asked : ∃ found, ⟨.mapGet digest, found⟩ ∈ done
  notified : ∀ load, ⟨.mapGet digest, some load⟩ ∈ done → ⟨.notifyWaiters load, ()⟩ ∈ done

omit [DecidableEq T] in
private theorem completeLoad_obeys :
    (completeLoad digest success).Obeys (stepRule digest completer completer)
    (fun _ done => Returned digest done) [] := by
  unfold completeLoad
  simp only [bind_eq, perform_bind, pure_eq]
  refine ⟨rfl, fun found => ?_⟩
  cases found with
  | none => exact ⟨⟨none, List.mem_cons_self⟩, fun load found => by simp at found⟩
  | some load =>
    refine ⟨⟨rfl, rfl⟩, fun _ => ⟨⟨rfl, _, rfl⟩, fun _ => ⟨trivial, fun _ => ⟨⟨rfl, rfl⟩, fun _ =>
      ⟨⟨some load, by simp⟩, fun load' found => ?_⟩⟩⟩⟩⟩
    obtain rfl : load' = load := by simpa using found
    simp

omit [DecidableEq T] in
private theorem follow_obeys :
    (follow digest).Obeys (stepRule digest completer t) (fun _ _ => True) [] := by
  unfold follow wait
  simp only [bind_eq, perform_bind, pure_eq]
  refine ⟨rfl, fun role => ?_⟩
  cases role with
  | leader => trivial
  | follower state =>
    refine ⟨trivial, fun _ => ⟨rfl, fun loading => ?_⟩⟩
    cases loading with
    | true => exact ⟨trivial, fun _ => ⟨rfl, fun seen => ⟨List.mem_cons_self, fun _ => trivial⟩⟩⟩
    | false => exact ⟨trivial, fun _ => trivial⟩

/-- The bookkeeping about the load that was in flight at first. -/
structure Tally (digest : String) (completer : T) (s : Shared) (h : History T Op Op.Res) : Prop where
  created : 0 < s.flight.created
  found : ∀ found, ⟨completer, .mapGet digest, found⟩ ∈ h → found = some 0
  held : ⟨completer, .mapRemove digest, ()⟩ ∉ h → s.flight.map.lookup digest = some 0
  seen : ∀ t seen, ⟨t, .notified 0, seen⟩ ∈ h → seen = 0
  before : ⟨completer, .notifyWaiters 0, ()⟩ ∉ h → (s.flight.states 0).notified = 0
  after : ⟨completer, .notifyWaiters 0, ()⟩ ∈ h → 0 < (s.flight.states 0).notified ∧
    ∀ t d, ⟨t, .tryBegin d, .follower 0⟩ ∈ h → Safe 0 s h t

omit [DecidableEq T] in
/-- A follower stays safe when it does not test the state and nobody writes it. -/
theorem Safe.cons {e : Event T Op Op.Res} (safe : Safe load s h t)
    (value : (s.flight.states load).value ≠ .loading → (s'.flight.states load).value ≠ .loading)
    (other : ∀ loading, e ≠ ⟨t, .test load, loading⟩) : Safe load s' (e :: h) t := by
  rcases safe with ⟨seen, created⟩ | ended | ⟨never, written⟩
  · exact .inl ⟨seen, List.mem_cons_of_mem _ created⟩
  · exact .inr (.inl (List.mem_cons_of_mem _ ended))
  · refine .inr (.inr ⟨fun loading tested => ?_, value written⟩)
    rcases List.mem_cons.mp tested with same | tested
    · exact other loading same.symm
    · exact never loading tested

omit [DecidableEq T] in
/-- A step that is neither the notification nor a test, and writes nothing. -/
theorem Tally.quiet {e : Event T Op Op.Res} (tally : Tally digest completer s h)
    (count : (s'.flight.states 0).notified = (s.flight.states 0).notified)
    (value : ⟨completer, .notifyWaiters 0, ()⟩ ∈ h →
      (s'.flight.states 0).value = (s.flight.states 0).value)
    (notifies : e ≠ ⟨completer, .notifyWaiters 0, ()⟩) (created : 0 < s'.flight.created)
    (found : ∀ found, e = ⟨completer, .mapGet digest, found⟩ → found = some 0)
    (held : e ≠ ⟨completer, .mapRemove digest, ()⟩ → s.flight.map.lookup digest = some 0 →
      s'.flight.map.lookup digest = some 0)
    (seen : ∀ t seen, e = ⟨t, .notified 0, seen⟩ → seen = 0)
    (joins : ∀ t d, e = ⟨t, .tryBegin d, .follower 0⟩ → ⟨completer, .notifyWaiters 0, ()⟩ ∈ h →
      Safe 0 s h t)
    (tests : ∀ t loading, e = ⟨t, .test 0, loading⟩ → ⟨completer, .notifyWaiters 0, ()⟩ ∈ h →
      loading = false) : Tally digest completer s' (e :: h) where
  created := created
  found answer asked := by
    rcases List.mem_cons.mp asked with same | asked
    · exact found answer same.symm
    · exact tally.found answer asked
  held kept := by
    refine held (fun same => kept (same ▸ List.mem_cons_self)) ?_
    exact tally.held fun removed => kept (List.mem_cons_of_mem _ removed)
  seen t count created := by
    rcases List.mem_cons.mp created with same | created
    · exact seen t count same.symm
    · exact tally.seen t count created
  before never := by
    rw [count]
    exact tally.before fun notified => never (List.mem_cons_of_mem _ notified)
  after notified := by
    have past : ⟨completer, .notifyWaiters 0, ()⟩ ∈ h :=
      (List.mem_cons.mp notified).resolve_left notifies.symm
    obtain ⟨counted, safe⟩ := tally.after past
    rw [count]
    refine ⟨counted, fun t d follower => ?_⟩
    have still : Safe 0 s h t := by
      rcases List.mem_cons.mp follower with same | follower
      · exact joins t d same.symm past
      · exact safe t d follower
    by_cases tested : ∃ loading, e = ⟨t, .test 0, loading⟩
    · obtain ⟨loading, rfl⟩ := tested
      rw [tests t loading rfl past]
      exact .inr (.inl List.mem_cons_self)
    · refine still.cons (fun written => ?_) fun loading same => tested ⟨loading, same⟩
      rwa [value past]

private theorem own_of_mem {done : List (Sigma Op.Res)} (own : h.own t = done) (mem : ⟨t, op, r⟩ ∈ h) :
    ⟨op, r⟩ ∈ done := by
  rw [← own]
  exact History.mem_own.mpr mem

private theorem not_mem_of_own {done : List (Sigma Op.Res)} (own : h.own t = done)
    (absent : ⟨op, r⟩ ∉ done) : ⟨t, op, r⟩ ∉ h :=
  fun mem => absent (own_of_mem own mem)

/-- A follower that is about to test the state or to create its future has done neither. -/
theorem not_loading_of_safe (safe : Safe 0 s h t)
    (own : h.own t = [⟨.lock 0, ()⟩, ⟨.tryBegin digest, .follower 0⟩]) :
    (s.flight.states 0).value ≠ .loading := by
  rcases safe with ⟨seen, created⟩ | ended | ⟨-, written⟩
  · exact absurd created (not_mem_of_own own (by simp))
  · exact absurd ended (not_mem_of_own own (by simp))
  · exact written

private theorem not_safe_of_tested (own : h.own t = [⟨.unlock 0, ()⟩, ⟨.test 0, true⟩, ⟨.lock 0, ()⟩,
    ⟨.tryBegin digest, .follower 0⟩]) : ¬ Safe 0 s h t := by
  rintro (⟨seen, created⟩ | ended | ⟨never, -⟩)
  · exact absurd created (not_mem_of_own own (by simp))
  · exact absurd ended (not_mem_of_own own (by simp))
  · refine never true (History.mem_own.mp ?_)
    rw [own]
    simp

private theorem tally_tryBegin {role : LoadRole} {d : String} (tally : Tally digest completer s h)
    (allowed : InTime t (.tryBegin d) elapsed s h) (own : h.own t = [])
    (hm : act (.tryBegin d) elapsed s = some (role, s')) :
    Tally digest completer s' (⟨t, .tryBegin d, role⟩ :: h) := by
  simp only [act, tryBeginLoad] at hm
  split at hm
  · cases hl : s.flight.map.lookup d with
    | some load =>
      simp only [hl, Option.some.injEq, Prod.mk.injEq] at hm
      obtain ⟨rfl, rfl⟩ := hm
      refine tally.quiet rfl (fun _ => rfl) nofun tally.created nofun (fun _ => id) nofun ?_ nofun
      rintro u d' ⟨⟩ notified
      refine .inr (.inr ⟨fun loading tested => ?_, allowed 0 hl ⟨completer, notified⟩⟩)
      have mem := own_of_mem own tested
      cases mem
    | none =>
      simp only [hl, Option.some.injEq, Prod.mk.injEq] at hm
      obtain ⟨rfl, rfl⟩ := hm
      have fresh : (0 : LoadId) ≠ s.flight.created := Nat.ne_of_lt tally.created
      have kept : Function.update s.flight.states s.flight.created ⟨.loading, 0⟩ 0 =
          s.flight.states 0 := Function.update_of_ne fresh _ _
      refine tally.quiet (congrArg LoadState.notified kept) (fun _ => congrArg LoadState.value kept)
        nofun (Nat.succ_pos _) nofun ?_ nofun nofun nofun
      intro _ held
      have other : digest ≠ d := by
        rintro rfl
        rw [hl] at held
        cases held
      exact (AList.lookup_insert_ne other).trans held
  · cases hm

private theorem tally_mapGet {d : String} {found : Option LoadId} (tally : Tally digest completer s h)
    (own : h.own t = []) (hm : act (.mapGet d) elapsed s = some (found, s')) :
    Tally digest completer s' (⟨t, .mapGet d, found⟩ :: h) := by
  have finds (load : Option LoadId) (hl : s.flight.map.lookup d = load)
      (same : s'.flight = s.flight) : Tally digest completer s' (⟨t, .mapGet d, load⟩ :: h) := by
    refine tally.quiet (by rw [same]) (fun _ => by rw [same]) nofun (by rw [same]; exact tally.created) ?_
      (fun _ held => by rw [same]; exact held) nofun nofun nofun
    rintro found ⟨⟩
    rw [← hl]
    exact tally.held (not_mem_of_own own List.not_mem_nil)
  simp only [act] at hm
  cases hl : s.flight.map.lookup d with
  | none =>
    simp only [hl, Option.some.injEq, Prod.mk.injEq] at hm
    obtain ⟨rfl, rfl⟩ := hm
    exact finds none hl rfl
  | some load =>
    simp only [hl, Option.some.injEq, Prod.mk.injEq] at hm
    obtain ⟨rfl, rfl⟩ := hm
    exact finds (some load) hl rfl

private theorem tally_tryWrite {value : LoadValue} (tally : Tally digest completer s h)
    (own : h.own completer = [⟨.mapGet digest, some load⟩])
    (hm : act (.tryWrite load value) elapsed s = some ((), s')) :
    Tally digest completer s' (⟨completer, .tryWrite load value, ()⟩ :: h) := by
  have unnotified : ⟨completer, .notifyWaiters 0, ()⟩ ∉ h := not_mem_of_own own (by simp)
  cases hm
  refine tally.quiet ?_ (fun notified => absurd notified unnotified) nofun ?_ nofun ?_ nofun nofun
    nofun
  · split
    · rfl
    · by_cases same : 0 = load
      · subst same
        simp [write]
      · exact congrArg LoadState.notified (Function.update_of_ne same _ _)
  · split
    · exact tally.created
    · exact tally.created
  · intro _ held
    split
    · exact held
    · exact held

omit [DecidableEq T] in
/-- The notification finds every follower safe. -/
theorem tally_notifyWaiters (tally : Tally digest completer s h)
    (allowed : InTime completer (.notifyWaiters load) elapsed s h)
    (hm : act (.notifyWaiters load) elapsed s = some ((), s')) :
    Tally digest completer s' (⟨completer, .notifyWaiters load, ()⟩ :: h) := by
  cases hm
  by_cases same : 0 = load
  · subst same
    have notifies : (s.flight.notifyWaiters 0).states 0 =
        ⟨(s.flight.states 0).value, (s.flight.states 0).notified + 1⟩ := by
      simp [SingleFlight.notifyWaiters]
    refine ⟨tally.created, fun found asked => ?_, fun kept => ?_, fun u seen created => ?_,
      fun never => absurd List.mem_cons_self never, fun _ => ⟨?_, fun u d follower => ?_⟩⟩
    · exact tally.found found ((List.mem_cons.mp asked).resolve_left nofun)
    · exact tally.held fun removed => kept (List.mem_cons_of_mem _ removed)
    · exact tally.seen u seen ((List.mem_cons.mp created).resolve_left nofun)
    · rw [notifies]
      exact Nat.succ_pos _
    · have follower := (List.mem_cons.mp follower).resolve_left nofun
      refine (allowed u d follower).cons (fun written => ?_) nofun
      rwa [notifies]
  · have kept : (s.flight.notifyWaiters load).states 0 = s.flight.states 0 :=
      Function.update_of_ne same _ _
    refine tally.quiet (congrArg LoadState.notified kept) (fun _ => congrArg LoadState.value kept)
      ?_ tally.created nofun (fun _ => id) nofun nofun nofun
    rintro ⟨⟩
    exact same rfl

private theorem tally_step (tally : Tally digest completer s h)
    (rule : stepRule digest completer t (h.own t) op) (allowed : InTime t op elapsed s h)
    (hm : act op elapsed s = some (r, s')) : Tally digest completer s' (⟨t, op, r⟩ :: h) := by
  cases op with
  | tryBegin d => exact tally_tryBegin tally allowed rule hm
  | mapGet d => exact tally_mapGet tally rule hm
  | tryWrite load value =>
    obtain ⟨rfl, own⟩ := rule
    exact tally_tryWrite tally own hm
  | notifyWaiters load =>
    obtain ⟨rfl, -⟩ := rule
    exact tally_notifyWaiters tally allowed hm
  | mapRemove d =>
    obtain ⟨rfl, rfl⟩ := rule
    simp only [act] at hm
    split at hm
    · cases hm
      refine tally.quiet rfl (fun _ => rfl) nofun tally.created nofun ?_ nofun nofun nofun
      exact fun other => absurd rfl other
    · cases hm
  | test load =>
    cases hm
    refine tally.quiet rfl (fun _ => rfl) nofun tally.created nofun (fun _ => id) nofun nofun ?_
    rintro u loading same notified
    cases same
    have follows : ⟨t, .tryBegin digest, .follower 0⟩ ∈ h :=
      History.mem_own.mp (by rw [show History.own h t = _ from rule]; simp)
    exact decide_eq_false (not_loading_of_safe ((tally.after notified).2 t digest follows) rule)
  | notified load =>
    cases hm
    refine tally.quiet rfl (fun _ => rfl) nofun tally.created nofun (fun _ => id) ?_ nofun nofun
    rintro u seen same
    cases same
    refine tally.before fun notified => ?_
    have follows : ⟨t, .tryBegin digest, .follower 0⟩ ∈ h :=
      History.mem_own.mp (by rw [show History.own h t = _ from rule]; simp)
    exact not_safe_of_tested rule ((tally.after notified).2 t digest follows)
  | lock load =>
    simp only [act] at hm
    split at hm
    · cases hm
    · cases hm
      exact tally.quiet rfl (fun _ => rfl) nofun tally.created nofun (fun _ => id) nofun nofun nofun
  | awaitNotified load seen =>
    simp only [act] at hm
    split at hm
    · cases hm
      exact tally.quiet rfl (fun _ => rfl) nofun tally.created nofun (fun _ => id) nofun nofun nofun
    · cases hm
  | dropEntry | unlock =>
    cases hm
    exact tally.quiet rfl (fun _ => rfl) nofun tally.created nofun (fun _ => id) nofun nofun nofun

/-- In every run that is in time, no follower of a load that has been completed is blocked: whoever
waits for its notification goes on without a timeout. -/
theorem no_lost_wakeup {c : Config T Op Op.Res Shared Unit}
    (run : Reaches (steps T) InTime (starting digest success completer) c)
    (returned : c.tasks completer = .ret ()) {seen : Nat} {next : Unit → Code Unit}
    (waits : c.tasks t = .call (.awaitNotified 0 seen) next) (elapsed : Bool) :
    ((steps T).perform t (.awaitNotified 0 seen) elapsed c.world).isSome := by
  have obeys : (starting digest success completer).Obeys (fun t => stepRule digest completer t)
      fun t _ done => t = completer → Returned digest done := by
    intro t
    by_cases own : t = completer
    · subst own
      rw [show (starting digest success t).tasks t = completeLoad digest success from if_pos rfl]
      exact completeLoad_obeys.mono fun _ _ done _ => done
    · rw [show (starting digest success completer).tasks t = follow digest from if_neg own]
      exact follow_obeys.mono fun _ _ _ same => absurd same own
  have start : Tally digest completer (starting digest success completer).world [] := by
    refine ⟨Nat.succ_pos _, fun _ asked => (List.not_mem_nil asked).elim, fun _ => ?_,
      fun _ _ created => (List.not_mem_nil created).elim, fun _ => rfl,
      fun notified => (List.not_mem_nil notified).elim⟩
    exact AList.lookup_insert _
  have preserves : Preserves (steps T) InTime (fun t => stepRule digest completer t)
      (Tally digest completer) :=
    fun _ _ _ _ _ _ _ tally rule allowed hm => tally_step tally rule allowed hm
  obtain ⟨tally, rules⟩ := run.preserves preserves obeys start
  obtain ⟨⟨found, asked⟩, notifies⟩ := rules.returned returned rfl
  have first := tally.found found (History.mem_own.mp asked)
  subst first
  have notified := History.mem_own.mp (notifies 0 asked)
  have created : ⟨.notified 0, seen⟩ ∈ History.own c.history t := rules.allowed waits
  have none := tally.seen t seen (History.mem_own.mp created)
  subst none
  have counted := (tally.after notified).1
  have goes : elapsed = true ∨ (c.world.flight.states 0).notified ≠ 0 := .inr (Nat.ne_of_gt counted)
  simp only [steps, act]
  rw [if_pos goes]
  rfl

end
def Op.begins : Op → Bool
  | .tryBegin _ => true
  | _ => false

def Op.notifies : Op → Bool
  | .notifyWaiters _ => true
  | _ => false

/-- Whoever has asked for election has created its future before the notification. -/
def early {T : Type} : Restriction T Op Op.Res Bool Shared := fun _ op _ _ h =>
  match op with
  | .notifyWaiters load =>
    ∀ e ∈ h, e.op.begins = true → ∃ f ∈ h, f.task = e.task ∧ f.op = .notified load
  | .tryBegin _ => ∀ e ∈ h, e.op.notifies = false
  | _ => True

instance {T : Type} [DecidableEq T] (t : T) (op : Op) (elapsed : Bool) (s : Shared)
    (h : History T Op Op.Res) : Decidable (early t op elapsed s h) := by
  unfold early
  split <;> infer_instance

private theorem inTime_of_early {T : Type} {t : T} {op : Op} {elapsed : Bool} {s : Shared}
    {h : History T Op Op.Res} (allowed : early t op elapsed s h) : InTime t op elapsed s h := by
  cases op with
  | notifyWaiters load =>
    intro u digest follower
    obtain ⟨⟨v, op, seen⟩, created, same, hop⟩ := allowed _ follower rfl
    obtain rfl : v = u := same
    obtain rfl : op = .notified load := hop
    exact .inl ⟨seen, created⟩
  | tryBegin digest =>
    rintro load - ⟨u, notified⟩
    cases allowed _ notified
  | _ => trivial

/-- Whether a task waits for the notification of the first load. -/
def waits (seen : Nat) (p : Code Unit) : Bool :=
  match p with
  | .call op _ => decide (op = .awaitNotified 0 seen)
  | .ret _ => false

private theorem next_of_waits {seen : Nat} {p : Code Unit} (h : waits seen p = true) :
    ∃ next, p = .call (.awaitNotified 0 seen) next := by
  cases p with
  | ret => cases h
  | call op next =>
    obtain rfl := of_decide_eq_true h
    exact ⟨next, rfl⟩

/-- A follower that waits is woken. -/
theorem follower_woken :
    ∃ (c : Config (Fin 2) Op Op.Res Shared Unit) (seen : Nat) (next : Unit → Code Unit),
      c.tasks 0 = .ret () ∧ c.tasks 1 = .call (.awaitNotified 0 seen) next ∧
      ((steps (Fin 2)).perform 1 (.awaitNotified 0 seen) false c.world).isSome := by
  obtain ⟨c, run, seen⟩ := play_observed (M := steps (Fin 2)) (A := early)
    (c := starting "d" true 0)
    (List.replicate 5 (1, false) ++ List.replicate 5 (0, false))
    (fun c => decide (c.returned 0 = some ()) && waits 0 (c.tasks 1))
    (by decide +kernel)
  simp only [Bool.and_eq_true, decide_eq_true_eq, Config.returned_eq_some] at seen
  obtain ⟨returned, waiting⟩ := seen
  obtain ⟨next, waiting⟩ := next_of_waits waiting
  exact ⟨c, 0, next, returned, waiting,
    no_lost_wakeup (run.weaken fun _ _ _ _ _ => inTime_of_early) returned waiting false⟩

/-- The follower sees `Loading`, and creates its future when everything is over. -/
def lateFuture : List (Fin 2 × Bool) :=
  List.replicate 4 (1, false) ++ List.replicate 5 (0, false) ++ [(1, false)]

/-- The follower holds the mutex when the state is to be written. -/
def contendedWrite : List (Fin 2 × Bool) :=
  List.replicate 2 (1, false) ++ List.replicate 5 (0, false) ++ List.replicate 3 (1, false)

/-- The schedule ends with the load over and the follower blocked on a notification that never
comes. -/
def StrandsFollower (schedule : List (Fin 2 × Bool)) : Prop :=
  ∃ (c : Config (Fin 2) Op Op.Res Shared Unit) (next : Unit → Code Unit),
    play (steps (Fin 2)) Restriction.none schedule (starting "d" true 0) = some c ∧
    Reaches (steps (Fin 2)) Restriction.none (starting "d" true 0) c ∧
    c.tasks 0 = .ret () ∧ c.tasks 1 = .call (.awaitNotified 0 1) next ∧
    (steps (Fin 2)).perform 1 (.awaitNotified 0 1) false c.world = none

private theorem strandsFollower_of_play {schedule : List (Fin 2 × Bool)}
    (seen : (play (steps (Fin 2)) Restriction.none schedule (starting "d" true 0)).any (fun c =>
      decide (c.returned 0 = some ()) && waits 1 (c.tasks 1) &&
        decide ((c.world.flight.states 0).notified = 1)) = true) :
    StrandsFollower schedule := by
  obtain ⟨c, played, seen⟩ := (Option.any_eq_true ..).mp seen
  simp only [Bool.and_eq_true, decide_eq_true_eq, Config.returned_eq_some] at seen
  obtain ⟨⟨returned, waiting⟩, counted⟩ := seen
  obtain ⟨next, waiting⟩ := next_of_waits waiting
  refine ⟨c, next, played, play_reaches played, returned, waiting, ?_⟩
  simp [steps, act, counted]

theorem wakeup_lost : StrandsFollower lateFuture ∧ StrandsFollower contendedWrite :=
  ⟨strandsFollower_of_play (by decide +kernel), strandsFollower_of_play (by decide +kernel)⟩

end RbatisCache.SingleFlight
