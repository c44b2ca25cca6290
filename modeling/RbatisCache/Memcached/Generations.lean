import RbatisCache.Interleaving.Counting
import RbatisCache.Interleaving.Protocol
import RbatisCache.Memcached.Model
import RbatisCache.Spi.Sample

/-! The generations of the backend over memcached. A bump is two messages, the first of which would write
zero; it is refused from the first increment on, so a counter counts its increments. -/
namespace RbatisCache.Memcached
open Interleaving
open Interleaving.Prog (bind_eq perform_bind pure_eq)
open MemcachedClientWrapper MemcachedCacheBackend

section
variable {T : Type} (blake3 : Bytes → String) (config : MemcachedConfiguration)

abbrev History (T : Type) := Interleaving.History T Op Op.Res

def isIncrement (key : String) (e : Event T Op Op.Res) : Bool :=
  match e.op with
  | .increment k _ => k == key
  | _ => false

/-- The increments that the server has executed. -/
def increments (key : String) (h : History T) : Nat := h.countP (isIncrement key)

def Returned (key : String) (e : Event T Op Op.Res) (n : Nat) : Prop :=
  ∃ t v, e = ⟨t, .increment key 1, .ok v⟩ ∧ v.toNat = n

/-- A `generation` call makes zero of an absent counter. -/
def Read (key : String) (e : Event T Op Op.Res) (n : Nat) : Prop :=
  ∃ t v, e = ⟨t, .get key, .ok v⟩ ∧ (v.getD 0).toNat = n

/-- Fewer than 2^64 increments of a counter are executed. -/
def Few : Restriction T Op Op.Res Choice World := fun _ op _ _ h =>
  match op with
  | .increment key _ => increments key h + 1 < 2 ^ 64
  | _ => True

instance (t : T) (op : Op) (ch : Choice) (w : World) (h : History T) : Decidable (Few t op ch w h) :=
  match op with
  | .increment key _ => inferInstanceAs (Decidable (increments key h + 1 < 2 ^ 64))
  | .add _ _ | .get _ => .isTrue trivial

/-- What a call has done before each message. -/
def rule (c : Call) (done : List (Sigma Op.Res)) : Op → Prop
  | .add key value => value = 0 ∧ done = [] ∧
      ∃ n, c = .bumpGeneration n ∧ key = generationKey blake3 config n
  | .increment key amount => amount = 1 ∧ ∃ n r, c = .bumpGeneration n ∧
      key = generationKey blake3 config n ∧ done = [⟨.add key 0, r⟩]
  | .get key => done = [] ∧ ∃ n, c = .generation n ∧ key = generationKey blake3 config n

/-- What a call has done when it returns. -/
def Answered : Call → Except CacheError UInt64 → List (Sigma Op.Res) → Prop
  | .generation n, reply, done => ∀ v, reply = .ok v →
      ∃ raw, ⟨.get (generationKey blake3 config n), .ok raw⟩ ∈ done ∧ v = raw.getD 0
  | .bumpGeneration n, reply, done => ∀ v, reply = .ok v →
      ⟨.increment (generationKey blake3 config n) 1, .ok v⟩ ∈ done

private theorem obeys_call (c : Call) : (c.program blake3 config).Obeys (rule blake3 config c)
    (Answered blake3 config c) [] := by
  cases c with
  | generation n =>
    refine ⟨⟨rfl, n, rfl, rfl⟩, fun reply => ?_⟩
    match reply with
    | .error e => exact nofun
    | .ok raw =>
      intro v hv
      cases hv
      exact ⟨raw, List.mem_cons_self, rfl⟩
  | bumpGeneration n =>
    refine ⟨⟨rfl, rfl, n, rfl, rfl⟩, fun stored => ⟨⟨rfl, n, stored, rfl, rfl, rfl⟩, fun reply => ?_⟩⟩
    match reply with
    | .error e => exact nofun
    | .ok new =>
      intro v hv
      cases hv
      exact List.mem_cons_self

end

section
variable {T : Type} {blake3 : Bytes → String} {config : MemcachedConfiguration} {calls : T → Call}
variable {w u : World} {h : History T} {t : T} {op : Op} {r : op.Res} {ch : Choice} {key : String}

/-- A counter counts its increments, from its first `add` on, and so do all who see it. -/
structure Counted (w : World) (h : History T) : Prop where
  value : ∀ key, ((w key).getD 0).toNat = increments key h
  present : ∀ key t v r, ⟨t, .add key v, r⟩ ∈ h → (w key).isSome
  numbers : ∀ key, h.Numbers (isIncrement key) (Returned key)
  observes : ∀ key, h.Observes (isIncrement key) (Read key)

/-- A message that leaves all counters as they are. -/
theorem increments_cons_of_not (quiet : ∀ key amount, op ≠ .increment key amount) (key : String) :
    increments key (⟨t, op, r⟩ :: h) = increments key h := by
  rw [increments, increments, List.countP_cons_of_neg]
  cases op with
  | increment k amount => exact absurd rfl (quiet k amount)
  | add k value => simp [isIncrement]
  | get k => simp [isIncrement]

theorem Counted.numbers_quiet (counted : Counted w h) (quiet : ∀ key amount, op ≠ .increment key amount)
    (key : String) : History.Numbers (isIncrement key) (Returned key) (⟨t, op, r⟩ :: h) := by
  refine (counted.numbers key).cons fun n reports => ?_
  obtain ⟨s, v, same, -⟩ := reports
  cases same
  exact absurd rfl (quiet _ _)

theorem Counted.observes_unread (counted : Counted w h) (unread : ∀ key, op ≠ .get key) (key : String) :
    History.Observes (isIncrement key) (Read key) (⟨t, op, r⟩ :: h) := by
  refine (counted.observes key).cons fun n sees => ?_
  obtain ⟨s, v, same, -⟩ := sees
  cases same
  exact absurd rfl (unread _)

/-- An `add` is refused by a counter and makes a zero of nothing. -/
theorem getD_add (key k : String) (ch : Choice) (w : World) :
    ((serve (.add key 0) ch w).2 k).getD 0 = (w k).getD 0 := by
  cases found : w key with
  | some n => rw [serve_add_present found]
  | none =>
    rw [serve_add_absent found]
    dsimp only
    by_cases same : k = key
    · subst same
      rw [Function.update_self, found]
      rfl
    · rw [Function.update_of_ne same]

private theorem isSome_add (key k : String) (ch : Choice) (w : World) :
    ((serve (.add key 0) ch w).2 k).isSome ↔ k = key ∨ (w k).isSome := by
  cases found : w key with
  | some n =>
    rw [serve_add_present found]
    constructor
    · exact .inr
    · rintro (rfl | present)
      · simp [found]
      · exact present
  | none =>
    rw [serve_add_absent found]
    by_cases same : k = key
    · subst same
      simp
    · simp [same]

theorem Counted.add (counted : Counted w h) (key : String) {r : Except String Unit} :
    Counted (serve (.add key 0) ch w).2 (⟨t, .add key 0, r⟩ :: h) where
  value k := by
    rw [getD_add, counted.value, increments_cons_of_not (by simp)]
  present k s v q hm := by
    rw [isSome_add]
    rcases List.mem_cons.mp hm with same | hm
    · cases same
      exact .inl rfl
    · exact .inr (counted.present k s v q hm)
  numbers := counted.numbers_quiet (by simp)
  observes := counted.observes_unread (by simp)

theorem Counted.get (counted : Counted w h) (key : String) {r : Except String (Option UInt64)}
    (delivered : ∀ raw, r = .ok raw → raw = w key) : Counted w (⟨t, .get key, r⟩ :: h) where
  value k := by
    rw [counted.value, increments_cons_of_not (by simp)]
  present k s v q hm := by
    rcases List.mem_cons.mp hm with same | hm
    · cases same
    · exact counted.present k s v q hm
  numbers := counted.numbers_quiet (by simp)
  observes k := by
    refine (counted.observes k).cons fun n sees => ?_
    obtain ⟨s, raw, same, rfl⟩ := sees
    cases same
    rw [delivered raw rfl, counted.value]
    rfl

/-- The counter is there, since the client of the increment has added it. -/
theorem Counted.increment (counted : Counted w h) (key : String) {n : UInt64} (found : w key = some n)
    (few : increments key h + 1 < 2 ^ 64) {r : Except String UInt64}
    (delivered : ∀ v, r = .ok v → v = n + 1) :
    Counted (serve (.increment key 1) ch w).2 (⟨t, .increment key 1, r⟩ :: h) := by
  have number : n.toNat = increments key h := by
    rw [← counted.value, found]
    rfl
  have next : (n + 1).toNat = increments key h + 1 := by
    rw [UInt64.toNat_add, number]
    exact Nat.mod_eq_of_lt few
  rw [serve_increment found]
  dsimp only
  constructor
  case value =>
    intro k
    by_cases same : k = key
    · subst same
      rw [Function.update_self, Option.getD_some, next, increments, increments,
        List.countP_cons_of_pos (by simp [isIncrement])]
    · rw [Function.update_of_ne same, counted.value, increments, increments,
        List.countP_cons_of_neg (by simpa [isIncrement] using Ne.symm same)]
  case present =>
    intro k s v q hm
    rcases List.mem_cons.mp hm with eq | hm
    · cases eq
    · by_cases same : k = key
      · subst same
        simp
      · rw [Function.update_of_ne same]
        exact counted.present k s v q hm
  case numbers =>
    intro k
    refine (counted.numbers k).cons fun m reports => ?_
    obtain ⟨s, v, same, rfl⟩ := reports
    cases same
    refine ⟨by simp [isIncrement], ?_⟩
    rw [delivered v rfl, next]
    rfl
  case observes => exact counted.observes_unread (by simp)

private theorem counted_preserved [DecidableEq T] : PreservesLawful (machine T) Few
    (fun t => rule blake3 config (calls t)) Counted := by
  intro t op ch w h r u lawful counted allowed few performed
  obtain ⟨rfl, rfl⟩ := Prod.mk.inj (Option.some.inj performed)
  cases op with
  | add key value =>
    obtain ⟨rfl, -⟩ := allowed
    exact counted.add key
  | increment key amount =>
    obtain ⟨rfl, n, r, -, -, done⟩ := allowed
    have added : ⟨t, .add key 0, r⟩ ∈ h := by
      apply History.mem_own.mp
      rw [done]
      exact List.mem_singleton_self _
    obtain ⟨n, found⟩ := Option.isSome_iff_exists.mp (counted.present key t 0 r added)
    refine counted.increment key found few fun v hv => ?_
    rw [serve_increment found] at hv
    cases lost : ch.lost with
    | none =>
      rw [lost] at hv
      exact (Except.ok.inj hv).symm
    | some e =>
      rw [lost] at hv
      cases hv
  | get key =>
    refine counted.get key fun raw hraw => ?_
    cases lost : ch.lost with
    | none =>
      rw [lost] at hraw
      exact (Except.ok.inj hraw).symm
    | some e =>
      rw [lost] at hraw
      cases hraw

private theorem obeys_initial [DecidableEq T] : (initial blake3 config calls).Obeys
    (fun t => rule blake3 config (calls t)) (fun t => Answered blake3 config (calls t)) :=
  fun t => obeys_call blake3 config (calls t)

private theorem counted_initial : Counted (initial blake3 config calls).world
    (initial blake3 config calls).history where
  value _ := rfl
  present _ _ _ _ hm := by cases hm
  numbers _ := History.always_nil
  observes _ := History.always_nil

end

/-- No update of a namespace's counter is lost. -/
structure Exact {T : Type} [DecidableEq T] (blake3 : Bytes → String) (config : MemcachedConfiguration)
    (calls : T → Call) (key : String) (d : Config T Op Op.Res World (Except CacheError UInt64)) :
    Prop where
  counter : ((d.world key).getD 0).toNat = increments key d.history
  /-- Completed bumps return different numbers. -/
  distinct : ∀ s t m n v, calls s = .bumpGeneration m → generationKey blake3 config m = key →
    calls t = .bumpGeneration n → generationKey blake3 config n = key →
    d.returned s = some (.ok v) → d.returned t = some (.ok v) → s = t
  /-- Reads never decrease, in the order in which they arrive at the server. -/
  reads : ∀ s t u v, d.history.Precedes ⟨s, .get key, .ok u⟩ ⟨t, .get key, .ok v⟩ →
    u.getD 0 ≤ v.getD 0
  /-- A completed `generation` call returns the number it has read. -/
  answered : ∀ t n v, calls t = .generation n → generationKey blake3 config n = key →
    d.returned t = some (.ok v) → ∃ raw, ⟨t, .get key, .ok raw⟩ ∈ d.history ∧ v = raw.getD 0
  /-- No `add` changes the number, however late it arrives. -/
  adds : ∀ e t v r, Step (machine T) Few d e → e.history = ⟨t, .add key v, r⟩ :: d.history →
    (e.world key).getD 0 = (d.world key).getD 0

/-- In every run with fewer than 2^64 increments of a counter, no update of it is lost. -/
theorem bumps_lose_no_update {T : Type} [DecidableEq T] {blake3 : Bytes → String}
    {config : MemcachedConfiguration} {calls : T → Call}
    {d : Config T Op Op.Res World (Except CacheError UInt64)}
    (run : Reaches (machine T) Few (initial blake3 config calls) d) (key : String) :
    Exact blake3 config calls key d := by
  obtain ⟨-, counted, obeys⟩ := run.lawful counted_preserved obeys_initial rfl counted_initial
  constructor
  case counter => exact counted.value key
  case distinct =>
    intro s t m n v callS keyS callT keyT returnedS returnedT
    have answerS := obeys.returned (Config.returned_eq_some.mp returnedS)
    have answerT := obeys.returned (Config.returned_eq_some.mp returnedT)
    rw [callS] at answerS
    rw [callT] at answerT
    have eventS := History.mem_own.mp (answerS v rfl)
    have eventT := History.mem_own.mp (answerT v rfl)
    rw [keyS] at eventS
    rw [keyT] at eventT
    have same := (counted.numbers key).unique eventS eventT ⟨s, v, rfl, rfl⟩ ⟨t, v, rfl, rfl⟩
    exact (Event.mk.inj same).1
  case reads =>
    intro s t u v order
    exact UInt64.le_iff_toNat_le.mpr
      ((counted.observes key).le_of_precedes order ⟨s, u, rfl, rfl⟩ ⟨t, v, rfl, rfl⟩)
  case answered =>
    intro t n v call same returned
    have answer := obeys.returned (Config.returned_eq_some.mp returned)
    rw [call] at answer
    obtain ⟨raw, read, number⟩ := answer v rfl
    rw [same] at read
    exact ⟨raw, History.mem_own.mp read, number⟩
  case adds =>
    intro e t v r step added
    obtain ⟨ch, next, program, -, performed⟩ := step.performed added
    obtain ⟨rfl, -⟩ := obeys.allowed program
    rw [← (Prod.mk.inj (Option.some.inj performed)).2]
    exact getD_add key key ch d.world

/-! ### Runs -/

namespace Sample

def counter : String := generationKey RbatisCache.Sample.hash {} "ns"

/-- Every client bumps the namespace once. -/
abbrev bumping (T : Type) : Config T Op Op.Res World (Except CacheError UInt64) :=
  initial RbatisCache.Sample.hash {} fun _ => .bumpGeneration "ns"

end Sample

/-- Two clients whose messages overlap. -/
theorem overlapping_bumps_counted :
    ∃ d : Config Bool Op Op.Res World (Except CacheError UInt64),
      d.returned false = some (.ok 1) ∧ d.returned true = some (.ok 2) ∧
        ((d.world Sample.counter).getD 0).toNat = increments Sample.counter d.history := by
  obtain ⟨d, run, seen⟩ := play_observed (M := machine Bool) (A := Few) (c := Sample.bumping Bool)
    [(false, {}), (true, {}), (false, {}), (true, {})]
    (fun d => decide (d.returned false = some (.ok 1) ∧ d.returned true = some (.ok 2)))
    (by decide +kernel)
  obtain ⟨first, second⟩ := of_decide_eq_true seen
  exact ⟨d, first, second, (bumps_lose_no_update run Sample.counter).counter⟩

/-- A message can always be sent. -/
theorem exists_step {T : Type} [DecidableEq T] {c : Config T Op Op.Res World (Except CacheError UInt64)}
    {t : T} {op : Op} {next : op.Res → Code (Except CacheError UInt64)} (ch : Choice)
    (program : c.tasks t = .call op next) : ∃ e r, Step (machine T) Restriction.none c e ∧
      e.world = (serve op ch c.world).2 ∧ e.history = ⟨t, op, r⟩ :: c.history ∧
      e.tasks = Function.update c.tasks t (next r) :=
  ⟨_, _, ⟨program, trivial, rfl⟩, rfl, rfl, rfl⟩

/-- One client after the other, as many as there are. -/
theorem reaches_increments (n : Nat) : ∃ d,
    Reaches (machine Nat) Restriction.none (Sample.bumping Nat) d ∧
    increments Sample.counter d.history = n ∧ (d.world Sample.counter).getD 0 = .ofNat n ∧
    ∀ t, n ≤ t → d.tasks t = Call.program RbatisCache.Sample.hash {} (.bumpGeneration "ns") := by
  induction n with
  | zero => exact ⟨_, .refl, rfl, rfl, fun t _ => rfl⟩
  | succ n ih =>
    obtain ⟨d, run, count, value, waiting⟩ := ih
    obtain ⟨e, r, adds, world, history, tasks⟩ := exists_step {} (waiting n le_rfl)
    have present := (isSome_add Sample.counter Sample.counter {} d.world).mpr (.inl rfl)
    obtain ⟨v, found⟩ := Option.isSome_iff_exists.mp present
    have number : v = .ofNat n := by
      rw [← value, ← getD_add Sample.counter Sample.counter {} d.world, found]
      rfl
    have added : e.tasks n = _ := (congrFun tasks n).trans (Function.update_self n _ d.tasks)
    obtain ⟨f, r', increments', world', history', tasks'⟩ := exists_step {} added
    rw [world] at world'
    refine ⟨f, (run.tail adds).tail increments', ?_, ?_, fun t later => ?_⟩
    · rw [history', history, increments, List.countP_cons_of_pos (by simp [isIncrement, Sample.counter]),
        ← increments, increments_cons_of_not (by simp), count]
    · rw [world']
      have incremented : serve (.increment Sample.counter 1) {} _ = _ := serve_increment found
      have next := congrArg (fun out => (out.2 Sample.counter).getD 0) incremented
      dsimp only at next
      rw [Function.update_self, Option.getD_some, number] at next
      exact next.trans (UInt64.ofNat_add n 1).symm
    · have ne : t ≠ n := by omega
      rw [tasks', Function.update_of_ne ne, tasks, Function.update_of_ne ne]
      exact waiting t (by omega)

/-- After 2⁶⁴ increments the counter is back at zero. -/
theorem counter_wraps_around : ∃ d, Reaches (machine Nat) Restriction.none (Sample.bumping Nat) d ∧
    increments Sample.counter d.history = 2 ^ 64 ∧ (d.world Sample.counter).getD 0 = 0 ∧
    ¬ Exact RbatisCache.Sample.hash {} (fun _ : Nat => .bumpGeneration "ns") Sample.counter d := by
  obtain ⟨d, run, count, value, -⟩ := reaches_increments (2 ^ 64)
  have zero : (d.world Sample.counter).getD 0 = 0 := value.trans (by decide)
  refine ⟨d, run, count, zero, fun exact' => ?_⟩
  have counter := exact'.counter
  rw [zero, count] at counter
  exact absurd counter (by decide)

end RbatisCache.Memcached
