import RbatisCache.CacheInterceptor.FailOpen
import RbatisCache.Interleaving.Counting

/-! What the counters say about the calls that have returned. A call is counted once as a hit or as a
load, but one that misses, waits for a flight and then finds the entry is counted as a miss too. -/
namespace RbatisCache.CacheInterceptor
open Interleaving Interleaving.Prog

section
variable {P : Type}

/-- The operations that count a call, and those on which it depends how it is counted. -/
def Op.isTally : Op → Bool
  | .record .hit | .record .miss | .record .bypass | .record .load | .lock _
  | .backend (.generation _) => true
  | _ => false

def Op.isLock : Op → Bool
  | .lock _ => true
  | _ => false

def Quiet (done : Done P) : Prop := ∀ e ∈ done, e.1.isTally = false

/-- How often a call has increased a counter. -/
def recorded (m : Metric) (done : Done P) : Nat := done.countP fun e => e.1 = .record m

/-- The operations that say how a call is counted. -/
def tallies (done : Done P) : Done P := done.filter fun e => e.1.isTally

/-- A generation read that failed. -/
def isUnread : Sigma (Op.Res P) → Bool
  | ⟨.backend (.generation _), .error _⟩ => true
  | _ => false

/-- The check that follows on taking a flight's lock has found a fresh entry. -/
def FoundUnderLock (X : Externals P) (done : Done P) : Prop :=
  ∃ flight n key p checked, ⟨.backend (.generation n), .ok key.generation⟩ ∈ done ∧
    Check X key (some p) checked ∧ checked ++ [⟨.lock flight, ()⟩] <:+: done

/-- The course of a call, as far as it is counted. -/
inductive Account (X : Externals P) : Done P → Prop
  | bypassed {after : Done P} (quiet : Quiet after) :
      Account X (after ++ [⟨.record .load, ()⟩, ⟨.record .bypass, ()⟩])
  | unread {after : Done P} {n : String} {e : CacheError} (quiet : Quiet after) :
      Account X (after ++ [⟨.record .load, ()⟩, ⟨.record .backendError, ()⟩,
        ⟨.backend (.generation n), .error e⟩])
  | found {checked : Done P} {n : String} {key : CacheKey} {p : P}
      (first : Check X key (some p) checked) :
      Account X (⟨.record .hit, ()⟩ :: checked ++ [⟨.backend (.generation n), .ok key.generation⟩])
  | settled {after again checked : Done P} {n d : String} {key : CacheKey} {f : FlightId}
      {a : Option P} (quiet : Quiet after) (second : Check X key a again)
      (first : Check X key none checked) :
      Account X ((after ++ ⟨.record (if a.isSome then .hit else .load), ()⟩ :: again) ++
        ⟨.lock f, ()⟩ :: (⟨.flightsEntry d, f⟩ :: ⟨.record .miss, ()⟩ :: checked ++
          [⟨.backend (.generation n), .ok key.generation⟩]))

variable {X : Externals P} {policy : CachePolicy} {request : CacheRequest} {done after : Done P}
variable {key : CacheKey} {a : Option P} {checked : Done P} {m : Metric}

theorem Check.quiet (h : Check X key a checked) : Quiet checked := by
  intro e he
  cases h <;> simp only [List.mem_cons, List.not_mem_nil, or_false] at he
  · rcases he with rfl | rfl <;> rfl
  · subst he
    rfl
  · rcases he with rfl | rfl <;> rfl
  · subst he
    rfl
  · rcases he with rfl | rfl <;> rfl

/-! ### The course of a call -/

/-- A program without counted operations adds quiet ones. -/
theorem ensures_quiet {α : Type} {p : Prog Op (Op.Res P) α}
    (only : p.Only fun op => op.isTally = false) :
    p.Ensures (fun _ later => ∃ after, later = after ++ done ∧ Quiet after) done := by
  refine only.ensures (fun later op r hop grown => ?_) ⟨[], rfl, fun _ he => by cases he⟩
  obtain ⟨after, rfl, quiet⟩ := grown
  refine ⟨⟨op, r⟩ :: after, rfl, fun e he => ?_⟩
  rcases List.mem_cons.mp he with rfl | he
  · exact hop
  · exact quiet e he

private theorem only_loader : (loader : Prog Op (Op.Res P) _).Only fun op => op.isTally = false :=
  ⟨rfl, fun _ => ⟨rfl, fun _ => ⟨rfl, fun _ => trivial⟩⟩⟩

private theorem only_backfill (payload : P) :
    (backfill X policy key payload).Only fun op => op.isTally = false := by
  unfold backfill
  split
  · refine ⟨rfl, fun now => ?_⟩
    simp only [bind_eq, ret_bind]
    split
    · trivial
    · refine ⟨rfl, fun result => ?_⟩
      cases result with
      | error e => exact ⟨rfl, fun _ => trivial⟩
      | ok _ => trivial
  · trivial

private theorem only_leaveFlight (f : FlightId) :
    (leaveFlight key f : Prog Op (Op.Res P) _).Only fun op => op.isTally = false :=
  ⟨rfl, fun _ => ⟨rfl, fun _ => ⟨rfl, fun _ => trivial⟩⟩⟩

private theorem only_abandonFlight (f : FlightId) :
    (abandonFlight f : Prog Op (Op.Res P) _).Only fun op => op.isTally = false :=
  ⟨rfl, fun _ => ⟨rfl, fun _ => trivial⟩⟩

/-- A call that loads without a flight. -/
theorem ensures_load_quiet :
    load.Ensures (fun _ later => ∃ after, later = after ++ ⟨.record .load, ()⟩ :: done ∧
      Quiet after) done :=
  ⟨trivial, fun _ => ensures_quiet only_loader⟩

private theorem ensures_bypass_account : bypass.Ensures (fun _ done => Account X done) [] := by
  refine ⟨trivial, fun _ => ensures_load_quiet.mono ?_⟩
  rintro _ _ ⟨after, rfl, quiet⟩
  exact .bypassed quiet

/-- From its miss on, a call is counted by its check under the lock. -/
theorem ensures_flightSection_account (first : Check X key none checked) {n : String} :
    (flightSection X policy key).Ensures (fun _ done => Account X done)
      (⟨.record .miss, ()⟩ :: checked ++
        [⟨.backend (.generation n), .ok key.generation⟩]) := by
  simp only [flightSection, bind_eq, perform_bind, pure_eq]
  refine ⟨trivial, fun flight => ⟨trivial, fun _ => ensures_check.andThen ?_⟩⟩
  rintro a _ ⟨again, rfl, second⟩ -
  cases a with
  | some payload =>
    refine ⟨trivial, fun _ => (ensures_quiet ((only_leaveFlight flight).bind fun _ =>
      only_ret _)).mono ?_⟩
    rintro _ _ ⟨after, rfl, quiet⟩
    simpa using Account.settled (X := X) (f := flight) (d := key.digest) (n := n) quiet second first
  | none =>
    refine ⟨trivial, fun _ => (ensures_quiet (only_loader.bind fun result => ?_)).mono ?_⟩
    · cases result with
      | error e => exact (only_abandonFlight flight).bind fun _ => only_ret _
      | ok payload =>
        refine (only_backfill payload).bind fun stored => ?_
        cases stored with
        | error e => exact (only_abandonFlight flight).bind fun _ => only_ret _
        | ok _ => exact (only_leaveFlight flight).bind fun _ => only_ret _
    · rintro _ _ ⟨after, rfl, quiet⟩
      simpa using Account.settled (X := X) (f := flight) (d := key.digest) (n := n) quiet second first

private theorem ensures_getOrLoad_account :
    (CacheInterceptor.getOrLoad X policy request).Ensures (fun _ done => Account X done) [] := by
  unfold CacheInterceptor.getOrLoad
  split
  · exact ensures_bypass_account
  · next metadata parsed =>
    split
    · exact ensures_bypass_account
    · refine ⟨trivial, fun result => ?_⟩
      cases result with
      | error e =>
        refine ⟨trivial, fun _ => ensures_load_quiet.mono ?_⟩
        rintro _ _ ⟨after, rfl, quiet⟩
        exact .unread quiet
      | ok g =>
        obtain ⟨key, built⟩ := CacheKey.build_of_parse parsed g
        simp only [ret_bind, built, bind_eq, perform_bind, pure_eq]
        rw [← CacheKey.build_generation built]
        refine ensures_check.andThen ?_
        rintro a _ ⟨checked, rfl, first⟩ -
        cases a with
        | some payload => exact ⟨trivial, fun _ => .found first⟩
        | none => exact ⟨trivial, fun _ => ensures_flightSection_account first⟩

/-! ### How a call is counted -/

theorem Quiet.not_mem (quiet : Quiet done) {e : Sigma (Op.Res P)} (tally : e.1.isTally = true) :
    e ∉ done := by
  intro he
  rw [quiet e he] at tally
  cases tally

@[simp] theorem tallies_nil : tallies ([] : Done P) = [] := rfl

@[simp] theorem tallies_append (later done : Done P) :
    tallies (later ++ done) = tallies later ++ tallies done :=
  List.filter_append _ _

@[simp] theorem tallies_cons (e : Sigma (Op.Res P)) (done : Done P) :
    tallies (e :: done) = if e.1.isTally then e :: tallies done else tallies done :=
  List.filter_cons

theorem Quiet.tallies (quiet : Quiet done) : tallies done = [] :=
  List.filter_eq_nil_iff.mpr fun e he => by simp [quiet e he]

theorem Quiet.unlocked (quiet : Quiet done) : ∀ e ∈ done, e.1.isLock = false := by
  intro e he
  have not := quiet e he
  unfold Op.isLock
  split
  · next lock =>
    rw [lock] at not
    cases not
  · rfl

theorem FoundUnderLock.exists_lock (h : FoundUnderLock X done) : ∃ f, ⟨.lock f, ()⟩ ∈ done := by
  obtain ⟨f, -, -, -, checked, -, -, within⟩ := h
  exact ⟨f, within.subset (List.mem_append_right checked List.mem_cons_self)⟩

/-- A list has one place for an element that occurs once. -/
theorem place_unique {α : Type} {p : α → Bool} {a b : α} {l m r s : List α}
    (same : l ++ a :: r = m ++ b :: s) (ha : p a = true) (hm : ∀ x ∈ m, p x = false)
    (hs : ∀ x ∈ s, p x = false) : l = m := by
  rcases List.append_eq_append_iff.mp same with ⟨between, rfl, rest⟩ | ⟨between, rfl, rest⟩
  · cases between with
    | nil => exact (List.append_nil l).symm
    | cons c between =>
      obtain ⟨rfl, -⟩ := List.cons.inj rest
      rw [hm a (List.mem_append_right l List.mem_cons_self)] at ha
      cases ha
  · cases between with
    | nil => exact List.append_nil m
    | cons c between =>
      obtain ⟨rfl, rfl⟩ := List.cons.inj rest
      rw [hs a (List.mem_append_right between List.mem_cons_self)] at ha
      cases ha

/-- A check does not both find an entry and miss it. -/
theorem Check.exclusive {l r again : Done P} {key' : CacheKey} {p : P}
    (hit : Check X key (some p) checked) (miss : Check X key' none again)
    (generation : key.generation = key'.generation) (same : l ++ checked = r ++ again) : False := by
  have asked := congrArg List.getLast? same
  cases hit with
  | found decoded fresh =>
    cases miss with
    | absent => simp at asked
    | failed => simp at asked
    | undecodable undecoded =>
      obtain ⟨-, rfl⟩ : _ ∧ _ = _ := by simpa using asked
      rw [decoded] at undecoded
      cases undecoded
    | stale decoded' stale =>
      obtain ⟨-, events⟩ := List.append_inj' same rfl
      obtain ⟨rfl, -, rfl⟩ : _ = _ ∧ key.digest = key'.digest ∧ _ = _ := by simpa using events
      rw [decoded] at decoded'
      cases decoded'
      rw [generation, stale] at fresh
      cases fresh

private theorem foundUnderLock_settled {again : Done P} {n d : String} {f : FlightId} {count : Metric}
    (quiet : Quiet after) (second : Check X key a again) (first : Check X key none checked) :
    FoundUnderLock X ((after ++ ⟨.record count, ()⟩ :: again) ++
      ⟨.lock f, ()⟩ :: (⟨.flightsEntry d, f⟩ :: ⟨.record .miss, ()⟩ :: checked ++
        [⟨.backend (.generation n), .ok key.generation⟩])) ↔ a.isSome = true := by
  constructor
  · rintro ⟨f', n', key', p, served, read, hit, l, r, same⟩
    have never {l : Done P} (hl : Quiet l) :
        ⟨.backend (.generation n'), .ok key'.generation⟩ ∉ l :=
      hl.not_mem rfl
    obtain ⟨-, generation⟩ : n' = n ∧ key'.generation = key.generation := by
      simpa [never quiet, never second.quiet, never first.quiet] using read
    rw [← List.append_assoc, List.append_assoc _ _ r, List.singleton_append] at same
    have ends : l ++ served = after ++ ⟨.record count, ()⟩ :: again := by
      refine place_unique (p := fun e => e.1.isLock) same rfl ?_ ?_
      · simp only [List.forall_mem_append, List.forall_mem_cons]
        exact ⟨quiet.unlocked, rfl, second.quiet.unlocked⟩
      · simp only [List.cons_append, List.forall_mem_append, List.forall_mem_cons]
        exact ⟨rfl, rfl, first.quiet.unlocked, rfl, nofun⟩
    cases a with
    | some p => rfl
    | none =>
      exact (hit.exclusive second generation ((List.append_cons after _ again).subst ends)).elim
  · intro found
    obtain ⟨p, rfl⟩ := Option.isSome_iff_exists.mp found
    exact ⟨f, n, key, p, again, by simp, second, after ++ [⟨.record count, ()⟩], _, by simp; rfl⟩

private theorem mem_tallies {e : Sigma (Op.Res P)} (tally : e.1.isTally = true) :
    e ∈ tallies done ↔ e ∈ done := by
  simp [tallies, tally]

private theorem recorded_tallies (tally : (Op.record m).isTally = true) :
    recorded m (tallies done) = recorded m done := by
  rw [recorded, tallies, List.countP_filter]
  refine List.countP_congr fun e _ => ?_
  simp only [Bool.and_eq_true, decide_eq_true_eq]
  exact ⟨And.left, fun same => ⟨same, same ▸ tally⟩⟩

private theorem unread_tallies : (tallies done).any isUnread = done.any isUnread := by
  rw [tallies, List.any_filter]
  refine congrArg done.any (funext fun e => ?_)
  cases unread : isUnread e with
  | false => exact Bool.and_false _
  | true =>
    unfold isUnread at unread
    split at unread
    · rfl
    · cases unread

/-- What the counters say about a task, which may be a call that is served under a lock. -/
structure Tallied (call found : Bool) (done : Done P) : Prop where
  once : recorded .hit done + recorded .load done = call.toNat
  covered : recorded .miss done + recorded .bypass done + (done.any isUnread).toNat =
    recorded .load done + found.toNat
  twice : ⟨.record .hit, ()⟩ ∈ done ∧ ⟨.record .miss, ()⟩ ∈ done ↔ found = true

/-- A call that is served under a lock does not load. -/
theorem Tallied.load_or_found {call found : Bool} (h : Tallied call found done) :
    recorded .load done + found.toNat ≤ call.toNat := by
  have once := h.once
  cases found with
  | false =>
    rw [Bool.toNat_false]
    omega
  | true =>
    have hit : 0 < recorded .hit done :=
      List.countP_pos_iff.mpr ⟨_, (h.twice.mpr rfl).1, decide_eq_true rfl⟩
    rw [Bool.toNat_true]
    omega

theorem Tallied.of_tallies {call found : Bool} {l : Done P} (h : Tallied call found l)
    (shown : tallies done = l) : Tallied call found done := by
  subst shown
  obtain ⟨once, covered, twice⟩ := h
  simp only [recorded_tallies (m := .hit) rfl, recorded_tallies (m := .miss) rfl,
    recorded_tallies (m := .bypass) rfl, recorded_tallies (m := .load) rfl,
    unread_tallies] at once covered
  rw [mem_tallies rfl, mem_tallies rfl] at twice
  exact ⟨once, covered, twice⟩

private theorem not_foundUnderLock (without : ∀ f, ⟨.lock f, ()⟩ ∉ tallies done) :
    FoundUnderLock X done ↔ false = true := by
  refine iff_of_false (fun found => ?_) Bool.false_ne_true
  obtain ⟨f, lock⟩ := found.exists_lock
  exact without f ((mem_tallies rfl).mpr lock)

theorem Account.tallied (account : Account X done) :
    ∃ found, (FoundUnderLock X done ↔ found = true) ∧ Tallied true found done := by
  cases account with
  | bypassed quiet =>
    have counts : Tallied (P := P) true false [⟨.record .load, ()⟩, ⟨.record .bypass, ()⟩] :=
      ⟨rfl, rfl, by simp⟩
    refine ⟨false, not_foundUnderLock ?_, counts.of_tallies ?_⟩ <;>
      simp [quiet.tallies, Op.isTally]
  | @unread after n e quiet =>
    have counts : Tallied (P := P) true false
        [⟨.record .load, ()⟩, ⟨.backend (.generation n), .error e⟩] :=
      ⟨rfl, rfl, by simp⟩
    refine ⟨false, not_foundUnderLock ?_, counts.of_tallies ?_⟩ <;>
      simp [quiet.tallies, Op.isTally]
  | @found checked n key p first =>
    have counts : Tallied (P := P) true false
        [⟨.record .hit, ()⟩, ⟨.backend (.generation n), .ok key.generation⟩] :=
      ⟨rfl, rfl, by simp⟩
    refine ⟨false, not_foundUnderLock ?_, counts.of_tallies ?_⟩ <;>
      simp [first.quiet.tallies, Op.isTally]
  | @settled after again checked n d key f a quiet second first =>
    have counts : Tallied (P := P) true a.isSome
        [⟨.record (if a.isSome then .hit else .load), ()⟩, ⟨.lock f, ()⟩, ⟨.record .miss, ()⟩,
          ⟨.backend (.generation n), .ok key.generation⟩] := by
      cases a <;> exact ⟨rfl, rfl, by simp⟩
    refine ⟨a.isSome, foundUnderLock_settled quiet second first, counts.of_tallies ?_⟩
    cases a <;>
      simp [quiet.tallies, second.quiet.tallies, first.quiet.tallies, Op.isTally]

def Task.isCall : Task → Bool
  | .getOrLoad _ => true
  | .write _ => false

private theorem ensures_program_tallied (task : Task) : (task.program X policy).Ensures (fun _ done =>
    ∃ found, (FoundUnderLock X done ↔ found = true) ∧ Tallied task.isCall found done) [] := by
  cases task with
  | getOrLoad request =>
    exact (ensures_getOrLoad_account.mono fun _ _ account => account.tallied).bind
  | write n =>
    have only : ((Task.write n).program X policy).Only fun op => op.isTally = false := by
      refine ⟨rfl, fun _ => ⟨rfl, fun result => ?_⟩⟩
      cases result with
      | error e => trivial
      | ok g => exact ⟨rfl, fun _ => trivial⟩
    refine (ensures_quiet only).mono ?_
    rintro _ _ ⟨after, rfl, quiet⟩
    have counts : Tallied (P := P) false false [] := ⟨rfl, rfl, by simp⟩
    refine ⟨false, not_foundUnderLock ?_, counts.of_tallies ?_⟩ <;> simp [quiet.tallies]

end

section
variable {B : CacheBackend} {P T : Type} [DecidableEq T] [Fintype T] {X : Externals P}
variable {policy : CachePolicy} {tasks : T → Task} {state : B.State}
variable {A : Restriction T Op (Op.Res P) (Choice B P) (World B T)}

/-- What the counters of finished calls should say: every call is a hit or a load, and the misses are
the loads of the calls that looked into the cache. The counters wrap around. -/
structure Describes (tasks : T → Task) (metrics : CacheMetrics) (h : History P T) : Prop where
  calls : metrics.hits + metrics.loads =
    .ofNat (Finset.univ.filter fun t => (tasks t).isCall).card
  misses : metrics.misses + metrics.bypasses +
    .ofNat (Finset.univ.filter fun t => (h.own t).any isUnread).card = metrics.loads
  once : ∀ t, ¬ (⟨.record .hit, ()⟩ ∈ h.own t ∧ ⟨.record .miss, ()⟩ ∈ h.own t)

instance [DecidableEq P] (metrics : CacheMetrics) (h : History P T) :
    Decidable (Describes tasks metrics h) :=
  decidable_of_iff (_ ∧ _ ∧ _) ⟨fun ⟨calls, misses, once⟩ => ⟨calls, misses, once⟩,
    fun ⟨calls, misses, once⟩ => ⟨calls, misses, once⟩⟩

/-- The same without the wrap-around, which takes `2 ^ 64` calls. -/
structure Counts (tasks : T → Task) (metrics : CacheMetrics) (h : History P T) : Prop where
  calls : metrics.hits.toNat + metrics.loads.toNat =
    (Finset.univ.filter fun t => (tasks t).isCall).card
  misses : metrics.misses.toNat + metrics.bypasses.toNat +
    (Finset.univ.filter fun t => (h.own t).any isUnread).card = metrics.loads.toNat

/-- How often all calls have increased a counter. -/
def total (m : Metric) (h : History P T) : Nat := ∑ t, recorded m (h.own t)

private theorem counter_eq_total (m : Metric) {d : Config T Op (Op.Res P) (World B T) (Reply P)}
    (run : Reaches (machine B P T) A (initial X policy tasks state) d) :
    d.world.metrics.counter m = .ofNat (total m d.history) :=
  (counter_eq m run).trans
    (congrArg _ (History.countP_eq_sum_own (fun e => e.1 = Op.record m) d.history))

omit [DecidableEq T] in
private theorem card_eq_sum (p : T → Bool) :
    (Finset.univ.filter fun t => p t).card = ∑ t, (p t).toNat := by
  rw [Finset.card_filter]
  refine Finset.sum_congr rfl fun t _ => ?_
  cases p t <;> rfl

section
variable {h : History P T} {found : T → Bool}
variable (counts : ∀ t, Tallied (tasks t).isCall (found t) (h.own t))
include counts

private theorem total_calls : total .hit h + total .load h =
    (Finset.univ.filter fun t => (tasks t).isCall).card := by
  rw [total, total, card_eq_sum, ← Finset.sum_add_distrib]
  exact Finset.sum_congr rfl fun t _ => (counts t).once

private theorem total_misses : total .miss h + total .bypass h +
    (Finset.univ.filter fun t => (h.own t).any isUnread).card =
      total .load h + (Finset.univ.filter fun t => found t).card := by
  rw [total, total, total, card_eq_sum, card_eq_sum, ← Finset.sum_add_distrib,
    ← Finset.sum_add_distrib, ← Finset.sum_add_distrib]
  exact Finset.sum_congr rfl fun t _ => (counts t).covered

private theorem total_found : total .load h + (Finset.univ.filter fun t => found t).card ≤
    (Finset.univ.filter fun t => (tasks t).isCall).card := by
  rw [total, card_eq_sum, card_eq_sum, ← Finset.sum_add_distrib]
  exact Finset.sum_le_sum fun t _ => (counts t).load_or_found

end

/-- When all calls have returned, the hits and the loads are as many as the calls. The misses are the
loads of the calls that looked into the cache unless one of them was served under a flight's lock:
such a call has been counted as a miss before it is counted as a hit. Fewer than `2 ^ 64` calls do not
wrap a counter around. -/
theorem counters_describe_iff {d : Config T Op (Op.Res P) (World B T) (Reply P)}
    (run : Reaches (machine B P T) A (initial X policy tasks state) d) (finished : d.Finished) :
    d.world.metrics.hits + d.world.metrics.loads =
      .ofNat (Finset.univ.filter fun t => (tasks t).isCall).card ∧
    (Describes tasks d.world.metrics d.history ↔
      ∀ t, ¬ FoundUnderLock X (d.history.own t)) ∧
    ((Finset.univ.filter fun t => (tasks t).isCall).card < 2 ^ 64 →
      d.world.metrics.hits.toNat + d.world.metrics.loads.toNat =
        (Finset.univ.filter fun t => (tasks t).isCall).card ∧
      (Counts tasks d.world.metrics d.history ↔
        ∀ t, ¬ FoundUnderLock X (d.history.own t))) := by
  have obeys := run.obeys fun t => ensures_program_tallied (tasks t)
  have tallied (t : T) : ∃ found, (FoundUnderLock X (d.history.own t) ↔ found = true) ∧
      Tallied (tasks t).isCall found (d.history.own t) := by
    obtain ⟨a, ha⟩ := finished t
    exact obeys.returned ha
  choose found served counts using tallied
  have none_iff : (∀ t, ¬ FoundUnderLock X (d.history.own t)) ↔
      (Finset.univ.filter fun t => found t).card = 0 := by
    rw [Finset.card_eq_zero, Finset.filter_eq_empty_iff]
    exact ⟨fun none t _ under => none t ((served t).mpr under),
      fun none t under => none (Finset.mem_univ t) ((served t).mp under)⟩
  have hits : d.world.metrics.hits = .ofNat (total .hit d.history) := counter_eq_total .hit run
  have misses : d.world.metrics.misses = .ofNat (total .miss d.history) :=
    counter_eq_total .miss run
  have bypasses : d.world.metrics.bypasses = .ofNat (total .bypass d.history) :=
    counter_eq_total .bypass run
  have loads : d.world.metrics.loads = .ofNat (total .load d.history) := counter_eq_total .load run
  have all := total_calls counts
  have missed := total_misses counts
  have bounded := total_found counts
  have calls : d.world.metrics.hits + d.world.metrics.loads =
      .ofNat (Finset.univ.filter fun t => (tasks t).isCall).card := by
    rw [hits, loads, ← UInt64.ofNat_add, all]
  refine ⟨calls, ⟨fun described t under => ?_, fun none => ⟨calls, ?_, fun t both => ?_⟩⟩,
    fun few => ?_⟩
  · exact described.once t ((counts t).twice.mpr ((served t).mp under))
  · rw [misses, bypasses, loads, ← UInt64.ofNat_add, ← UInt64.ofNat_add, missed, none_iff.mp none,
      Nat.add_zero]
  · exact none t ((served t).mpr ((counts t).twice.mp both))
  · have exact {n : Nat} (le : n ≤ (Finset.univ.filter fun t => (tasks t).isCall).card) :
        (UInt64.ofNat n).toNat = n :=
      UInt64.toNat_ofNat_of_lt' (le.trans_lt few)
    have seen : d.world.metrics.hits.toNat + d.world.metrics.loads.toNat =
        (Finset.univ.filter fun t => (tasks t).isCall).card := by
      rw [hits, loads, exact (by omega), exact (by omega), all]
    refine ⟨seen, ⟨fun counted => none_iff.mpr ?_, fun none => ⟨seen, ?_⟩⟩⟩
    · have same := counted.misses
      rw [misses, bypasses, loads, exact (by omega), exact (by omega), exact (by omega)] at same
      omega
    · have unserved := none_iff.mp none
      rw [misses, bypasses, loads, exact (by omega), exact (by omega), exact (by omega)]
      omega

end

/-- Two calls for one key that is not cached. -/
def twoCalls : Bool → Task := fun _ => .getOrLoad ⟨Sample.keyInput, false⟩

def twoCallsStart : Config Bool Op (Op.Res Bytes) (World (LocalBackend.backend Sample.hash) Bool)
    (Reply Bytes) :=
  initial Sample.externals {} twoCalls (LocalBackend.withConfig {})

def atFive : Choice (LocalBackend.backend Sample.hash) Bytes := ⟨⟨[], 5⟩, 5, .ok [7]⟩

/-- The second call begins after the first has returned. -/
theorem later_call_counted_once : ∃ d,
    d.world.metrics.hits.toNat + d.world.metrics.loads.toNat = 2 ∧
    Reaches (machine (LocalBackend.backend Sample.hash) Bytes Bool) Restriction.none
      twoCallsStart d ∧
    ∀ t, ¬ FoundUnderLock Sample.externals (d.history.own t) := by
  obtain ⟨d, run, seen⟩ := play_observed (M := machine _ Bytes Bool) (A := Restriction.none)
    (c := twoCallsStart) (List.replicate 15 (false, atFive) ++ List.replicate 4 (true, atFive))
    (fun d => decide (d.Finished ∧ Describes twoCalls d.world.metrics d.history))
    (by decide +kernel)
  obtain ⟨finished, described⟩ := of_decide_eq_true seen
  obtain ⟨-, iff, few⟩ := counters_describe_iff run finished
  exact ⟨d, (few (by decide)).1, run, iff.mp described⟩

/-- The second call waits for the flight of the first and is counted as a miss and as a hit. -/
theorem follower_counted_twice : ∃ d,
    Reaches (machine (LocalBackend.backend Sample.hash) Bytes Bool) Restriction.none
      twoCallsStart d ∧ d.Finished ∧
    d.world.metrics = { hits := 1, misses := 2, loads := 1 } ∧
    ¬ Describes twoCalls d.world.metrics d.history := by
  obtain ⟨d, run, seen⟩ := play_observed (M := machine _ Bytes Bool) (A := Restriction.none)
    (c := twoCallsStart) (List.replicate 5 (false, atFive) ++ List.replicate 4 (true, atFive) ++
      List.replicate 10 (false, atFive) ++ List.replicate 7 (true, atFive))
    (fun d => decide (d.Finished ∧ d.world.metrics = { hits := 1, misses := 2, loads := 1 } ∧
      ¬ Describes twoCalls d.world.metrics d.history))
    (by decide +kernel)
  exact ⟨d, run, of_decide_eq_true seen⟩

end RbatisCache.CacheInterceptor
