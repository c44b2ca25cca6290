import RbatisCache.CacheInterceptor.OneLoad

/-! One call of `get_or_load` against a backend that fails at will and returns anything. Its course
is one of three, whatever the answers, and every fault on the way is counted. -/
namespace RbatisCache.CacheInterceptor
open Interleaving Interleaving.Prog

section
variable {P : Type}

/-- A backend call that has returned an error. -/
def isFault : Sigma (Op.Res P) → Bool
  | ⟨.backend op, r⟩ => decide (op.Failed r)
  | _ => false

/-- `record_backend_error`. -/
def Op.isReport : Op → Bool
  | .record .backendError => true
  | _ => false

theorem Op.isReport_iff {op : Op} : op.isReport = true ↔ op = .record .backendError := by
  unfold Op.isReport
  split
  · simp
  · next other => exact iff_of_false Bool.false_ne_true other

def Op.isLoaderStart : Op → Bool
  | .loaderStart => true
  | _ => false

/-- An operation of a loader, or one that fills the cache. -/
def Op.isLoud : Op → Bool
  | .loaderStart | .databaseRead | .backend (.put _ _ _) => true
  | _ => false

def faults (done : Done P) : Nat := done.countP isFault

def reports (done : Done P) : Nat := done.countP fun e => e.1.isReport

def loaderRuns (done : Done P) : Nat := done.countP fun e => e.1.isLoaderStart

/-- What a call has done besides looking into the cache. -/
def journal (done : Done P) : Done P := done.filter fun e => e.1.isLoud

def Balanced (done : Done P) : Prop := reports done = faults done

/-- A check that has found an unexpired envelope of the key's generation. -/
inductive Hit (X : Externals P) (request : CacheRequest) (p : P) (done : Done P) : Prop
  | mk {g now : UInt64} {key : CacheKey} {bytes : Bytes} {envelope : CacheEnvelope P}
      (read : ⟨.backend (.generation request.key.nameSpace), .ok g⟩ ∈ done)
      (built : CacheKey.build X request.key g = .ok key)
      (got : [⟨.nowMs, now⟩, ⟨.backend (.get key.digest), .ok (some bytes)⟩] <:+: done)
      (decoded : CacheEnvelope.decode X bytes = .ok envelope)
      (version : envelope.version = 1) (generation : envelope.generation = key.generation)
      (unexpired : now < envelope.expiresAtMs) (payload : envelope.payload = p)

/-- How a call comes to its result. -/
inductive Course (X : Externals P) (request : CacheRequest) (done : Done P) :
    Except CacheError P → Prop
  | hit {p : P} (found : Hit X request p done) (quiet : journal done = []) : Course X request done (.ok p)
  | loaded {a : Except CacheError P}
      (read : journal done = [⟨.databaseRead, a⟩, ⟨.loaderStart, ()⟩]) : Course X request done a
  | stored {p : P} {k : String} {b : Bytes} {ttl : Duration} {r : (BackendOp.put k b ttl).Res}
      (put : journal done =
        [⟨.backend (.put k b ttl), r⟩, ⟨.databaseRead, .ok p⟩, ⟨.loaderStart, ()⟩]) :
      Course X request done (.ok p)

/-- What a caller of `get_or_load` can rely on. -/
structure FailsOpen (X : Externals P) (request : CacheRequest) (result : Except CacheError P)
    (done : Done P) : Prop where
  once : loaderRuns done ≤ 1
  error_iff : (∃ e, result = .error e) ↔ ∃ e, ⟨.databaseRead, .error e⟩ ∈ done
  error : ∀ e, result = .error e → ⟨.databaseRead, .error e⟩ ∈ done
  ok : ∀ p, result = .ok p → ⟨.databaseRead, .ok p⟩ ∈ done ∨ Hit X request p done
  unfilled : ∀ e, ⟨.databaseRead, .error e⟩ ∈ done →
    ∀ k b ttl r, ⟨.backend (.put k b ttl), r⟩ ∉ done
  reported : reports done = faults done

/-- The envelopes of a request can be encoded. -/
def Encodable (X : Externals P) (policy : CachePolicy) (request : CacheRequest) : Prop :=
  ∀ g key p now, CacheKey.build X request.key g = .ok key →
    ∃ bytes, (CacheEnvelope.new key p policy.ttl now).encode X = .ok bytes

variable {X : Externals P} {policy : CachePolicy} {request : CacheRequest} {done later : Done P}
variable {key : CacheKey} {g : UInt64} {p : P}

theorem Balanced.cons (h : Balanced done) {e : Sigma (Op.Res P)} (hf : isFault e = false)
    (hr : e.1.isReport = false) : Balanced (e :: done) := by
  rw [Balanced, reports, faults, List.countP_cons_of_neg (by simp [hr]),
    List.countP_cons_of_neg (by simp [hf])]
  exact h

/-- A fault and its report. -/
theorem Balanced.report (h : Balanced done) {op : BackendOp} {r : op.Res} (hf : op.Failed r) :
    Balanced (⟨.record .backendError, ()⟩ :: ⟨.backend op, r⟩ :: done) := by
  have hreports : reports (⟨.record .backendError, ()⟩ :: ⟨.backend op, r⟩ :: done) =
      reports done + 1 := by
    rw [reports, List.countP_cons_of_pos rfl, List.countP_cons_of_neg (by simp [Op.isReport])]
    rfl
  have hfaults : faults (⟨.record .backendError, ()⟩ :: ⟨.backend op, r⟩ :: done) =
      faults done + 1 := by
    rw [faults, List.countP_cons_of_neg (by simp [isFault]),
      List.countP_cons_of_pos (by simp [isFault, hf])]
    rfl
  rw [Balanced, hreports, hfaults]
  exact congrArg (· + 1) h

theorem Hit.grow (h : Hit X request p done) (hl : done <:+ later) : Hit X request p later := by
  obtain ⟨read, built, got, decoded, version, generation, unexpired, payload⟩ := h
  exact ⟨hl.subset read, built, got.trans hl.isInfix, decoded, version, generation, unexpired,
    payload⟩

theorem mem_journal {e : Sigma (Op.Res P)} (he : e.1.isLoud = true) : e ∈ journal done ↔ e ∈ done := by
  simp [journal, he]

theorem loaderRuns_eq : loaderRuns done = loaderRuns (journal done) := by
  rw [loaderRuns, loaderRuns, journal, List.countP_filter]
  apply List.countP_congr
  intro e _
  cases h : e.1 <;> simp [Op.isLoaderStart, Op.isLoud]

/-- What follows from the course of a call. -/
theorem Course.failsOpen {a : Except CacheError P} (h : Course X request done a)
    (hb : Balanced done) : FailsOpen X request a done := by
  have hread (r : (Op.databaseRead).Res P) :
      ⟨.databaseRead, r⟩ ∈ done ↔ ⟨.databaseRead, r⟩ ∈ journal done := (mem_journal rfl).symm
  have hput (k b ttl r) : ⟨.backend (.put k b ttl), r⟩ ∈ done ↔
      ⟨.backend (.put k b ttl), r⟩ ∈ journal done := (mem_journal rfl).symm
  cases h with
  | hit found quiet =>
    refine ⟨?_, ?_, nofun, fun q hq => .inr ?_, fun e he => ?_, hb⟩
    · rw [loaderRuns_eq, quiet]
      exact Nat.zero_le 1
    · simp [hread, quiet]
    · cases hq
      exact found
    · rw [hread, quiet] at he
      cases he
  | loaded read =>
    refine ⟨?_, ?_, fun e he => ?_, fun q hq => .inl ?_, fun e _ k b ttl r => ?_, hb⟩
    · rw [loaderRuns_eq, read]
      exact Nat.le_refl 1
    · simp [hread, read, eq_comm]
    · rw [hread, read, he]
      exact List.mem_cons_self
    · rw [hread, read, hq]
      exact List.mem_cons_self
    · rw [hput, read]
      simp
  | stored put =>
    refine ⟨?_, ?_, nofun, fun q hq => .inl ?_, fun e he => ?_, hb⟩
    · rw [loaderRuns_eq, put]
      exact Nat.le_refl 1
    · simp [hread, put]
    · cases hq
      rw [hread, put]
      simp
    · rw [hread, put] at he
      simp at he

/-! ### The course of a call -/

private theorem ensures_load (hb : Balanced done) (hj : journal done = []) :
    load.Ensures (fun a after => Balanced after ∧
      journal after = [⟨.databaseRead, a⟩, ⟨.loaderStart, ()⟩]) done := by
  simp only [load, loader, bind_eq, perform_bind, pure_eq]
  refine ⟨trivial, fun _ => ⟨trivial, fun _ => ⟨trivial, fun a => ⟨trivial, fun _ => ⟨?_, ?_⟩⟩⟩⟩⟩
  · exact (((hb.cons rfl rfl).cons rfl rfl).cons rfl rfl).cons rfl rfl
  · exact congrArg (fun rest => ⟨.databaseRead, a⟩ :: ⟨.loaderStart, ()⟩ :: rest) hj

/-- A call that loads without having gone into a flight. -/
theorem ensures_load_only (hb : Balanced done) (hj : journal done = []) :
    load.Ensures (fun a after => Course X request after a ∧ Balanced after) done :=
  (ensures_load hb hj).mono fun _ _ ha => ⟨.loaded ha.2, ha.1⟩

/-- A check counts its fault, and what it finds is fresh. -/
theorem ensures_cached (hb : Balanced done) :
    (cached X key).Ensures (fun a after => Balanced after ∧ journal after = journal done ∧
      ∀ p, a = some p → ∃ bytes envelope now,
        after = ⟨.nowMs, now⟩ :: ⟨.backend (.get key.digest), .ok (some bytes)⟩ :: done ∧
        CacheEnvelope.decode X bytes = .ok envelope ∧
        envelope.isFresh key.generation now = true ∧ envelope.payload = p) done := by
  refine ensures_check.mono ?_
  rintro a _ ⟨checked, rfl, check⟩
  cases check with
  | @found bytes envelope now decoded fresh =>
    refine ⟨(hb.cons rfl rfl).cons rfl rfl, rfl, fun p hp => ?_⟩
    exact ⟨bytes, envelope, now, rfl, decoded, fresh, Option.some.inj hp⟩
  | absent => exact ⟨hb.cons rfl rfl, rfl, nofun⟩
  | failed e => exact ⟨hb.report ⟨e, rfl⟩, rfl, nofun⟩
  | undecodable => exact ⟨hb.cons rfl rfl, rfl, nofun⟩
  | stale => exact ⟨(hb.cons rfl rfl).cons rfl rfl, rfl, nofun⟩

theorem Hit.of_cached {bytes : Bytes} {envelope : CacheEnvelope P} {now : UInt64}
    (read : ⟨.backend (.generation request.key.nameSpace), .ok g⟩ ∈ done)
    (built : CacheKey.build X request.key g = .ok key)
    (decoded : CacheEnvelope.decode X bytes = .ok envelope)
    (fresh : envelope.isFresh key.generation now = true) :
    Hit X request envelope.payload
      (⟨.nowMs, now⟩ :: ⟨.backend (.get key.digest), .ok (some bytes)⟩ :: done) := by
  obtain ⟨version, generation, unexpired⟩ := CacheEnvelope.isFresh_iff.mp fresh
  have hsuf : done <:+ ⟨.nowMs, now⟩ :: ⟨.backend (.get key.digest), .ok (some bytes)⟩ :: done :=
    (List.suffix_cons _ _).trans (List.suffix_cons _ _)
  exact ⟨hsuf.subset read, built, (List.prefix_append [_, _] done).isInfix, decoded, version,
    generation, unexpired, rfl⟩

private theorem ensures_backfill (encodes : Encodable X policy request)
    (built : CacheKey.build X request.key g = .ok key) (hb : Balanced done) :
    (backfill X policy key p).Ensures (fun a after => a = .ok () ∧ Balanced after ∧
      (journal after = journal done ∨
        ∃ k b ttl r, journal after = ⟨.backend (.put k b ttl), r⟩ :: journal done)) done := by
  unfold backfill
  simp only [bind_eq, perform_bind, pure_eq]
  split
  · refine ⟨trivial, fun now => ?_⟩
    have hnow := hb.cons (e := ⟨.nowMs, now⟩) rfl rfl
    obtain ⟨bytes, he⟩ := encodes g key p now built
    dsimp only
    rw [he]
    refine ⟨trivial, fun result => ?_⟩
    match result with
    | .error e =>
      exact ⟨trivial, fun _ => ⟨rfl, hnow.report ⟨e, rfl⟩, .inr ⟨_, _, _, _, rfl⟩⟩⟩
    | .ok _ => exact ⟨rfl, hnow.cons rfl rfl, .inr ⟨_, _, _, _, rfl⟩⟩
  · exact ⟨rfl, hb, .inl rfl⟩

private theorem ensures_leaveFlight {f : FlightId} (hb : Balanced done) :
    (leaveFlight key f : Prog Op (Op.Res P) Unit).Ensures
      (fun _ after => Balanced after ∧ journal after = journal done ∧ done <:+ after) done := by
  simp only [leaveFlight, bind_eq, perform_bind]
  refine ⟨trivial, fun _ => ⟨trivial, fun _ => ⟨trivial, fun _ => ⟨?_, rfl, ?_⟩⟩⟩⟩
  · exact ((hb.cons rfl rfl).cons rfl rfl).cons rfl rfl
  · exact ((List.suffix_cons _ _).trans (List.suffix_cons _ _)).trans (List.suffix_cons _ _)

private theorem ensures_abandonFlight {f : FlightId} (hb : Balanced done) :
    (abandonFlight f : Prog Op (Op.Res P) Unit).Ensures
      (fun _ after => Balanced after ∧ journal after = journal done) done := by
  simp only [abandonFlight, bind_eq, perform_bind]
  exact ⟨trivial, fun _ => ⟨trivial, fun _ => ⟨(hb.cons rfl rfl).cons rfl rfl, rfl⟩⟩⟩

private theorem ensures_flightSection (encodes : Encodable X policy request)
    (read : ⟨.backend (.generation request.key.nameSpace), .ok g⟩ ∈ done)
    (built : CacheKey.build X request.key g = .ok key) (hb : Balanced done)
    (hj : journal done = []) :
    (flightSection X policy key).Ensures (fun a after => Course X request after a ∧ Balanced after)
      done := by
  unfold flightSection
  simp only [bind_eq, perform_bind, pure_eq]
  refine ⟨trivial, fun flight => ⟨trivial, fun _ => ?_⟩⟩
  have hlocked : Balanced (⟨.lock flight, ()⟩ :: ⟨.flightsEntry key.digest, flight⟩ :: done) :=
    (hb.cons rfl rfl).cons rfl rfl
  refine (ensures_cached hlocked).andThen fun a checked ⟨hchecked, hjournal, hfound⟩ hc => ?_
  have hquiet : journal checked = [] := hjournal.trans hj
  have hread : ⟨.backend (.generation request.key.nameSpace), .ok g⟩ ∈ checked :=
    hc.subset (List.mem_cons_of_mem _ (List.mem_cons_of_mem _ read))
  match a with
  | some p =>
    refine ⟨trivial, fun _ => ?_⟩
    have hhit : Balanced (⟨.record .hit, ()⟩ :: checked) := hchecked.cons rfl rfl
    refine (ensures_leaveFlight hhit).andThen fun _ left ⟨hleft, hj', hl⟩ _ => ?_
    obtain ⟨bytes, envelope, now, rfl, hd, hf, rfl⟩ := hfound p rfl
    have hit : Hit X request envelope.payload left :=
      (Hit.of_cached (List.mem_cons_of_mem _ (List.mem_cons_of_mem _ read)) built hd hf).grow
        ((List.suffix_cons _ _).trans hl)
    exact ⟨.hit hit (hj'.trans hquiet), hleft⟩
  | none =>
    refine (ensures_load hchecked hquiet).andThen fun a loaded ⟨hloaded, hloads⟩ _ => ?_
    match a with
    | .error e =>
      refine (ensures_abandonFlight hloaded).andThen fun _ left ⟨hleft, hj'⟩ _ => ?_
      exact ⟨.loaded (hj'.trans hloads), hleft⟩
    | .ok p =>
      refine (ensures_backfill encodes built hloaded).andThen fun a filled ⟨ha, hfilled, hput⟩ _ => ?_
      subst ha
      refine (ensures_leaveFlight hfilled).andThen fun _ left ⟨hleft, hj', _⟩ _ => ?_
      rcases hput with hput | ⟨k, b, ttl, r, hput⟩
      · exact ⟨.loaded (hj'.trans (hput.trans hloads)), hleft⟩
      · rw [hput, hloads] at hj'
        exact ⟨.stored hj', hleft⟩

private theorem ensures_bypass :
    bypass.Ensures (fun a after => Course X request after a ∧ Balanced after) [] := by
  simp only [bypass, bind_eq, perform_bind]
  exact ⟨trivial, fun _ => ensures_load_only rfl rfl⟩

private theorem ensures_getOrLoad (encodes : Encodable X policy request) :
    (getOrLoad X policy request).Ensures (fun a after => Course X request after a ∧ Balanced after)
      [] := by
  have hempty : Balanced ([] : Done P) := rfl
  unfold getOrLoad
  split
  · exact ensures_bypass
  · split
    · exact ensures_bypass
    · simp only [bind_eq, perform_bind, pure_eq]
      refine ⟨trivial, fun result => ?_⟩
      match result with
      | .error e =>
        exact ⟨trivial, fun _ => ensures_load_only (hempty.report ⟨e, rfl⟩) rfl⟩
      | .ok g =>
        have hread := hempty.cons (e := ⟨.backend (.generation request.key.nameSpace), .ok g⟩) rfl rfl
        dsimp only
        split
        · exact ensures_load_only hread rfl
        · next key built =>
          refine (ensures_cached hread).andThen fun a checked ⟨hchecked, hjournal, hfound⟩ hc => ?_
          match a with
          | some p =>
            refine ⟨trivial, fun _ => ⟨.hit ?_ hjournal, hchecked.cons rfl rfl⟩⟩
            obtain ⟨bytes, envelope, now, rfl, hd, hf, rfl⟩ := hfound p rfl
            exact (Hit.of_cached List.mem_cons_self built hd hf).grow (List.suffix_cons _ _)
          | none =>
            refine ⟨trivial, fun _ => ?_⟩
            exact ensures_flightSection encodes
              (List.mem_cons_of_mem _ (hc.subset List.mem_cons_self)) built
              (hchecked.cons rfl rfl) hjournal

end

section
variable {B : CacheBackend} {P T : Type} [DecidableEq T] {X : Externals P} {policy : CachePolicy}
variable {tasks : T → Task} {state : B.State}

omit [DecidableEq T] in
private theorem metrics_of_perform {t : T} {op : Op} {ch : Choice B P} {w u : World B T} {r : op.Res P}
    (hop : ∀ m, op ≠ .record m) (hm : (machine B P T).perform t op ch w = some (r, u)) :
    u.metrics = w.metrics := by
  cases op with
  | record m => exact absurd rfl (hop m)
  | flightsEntry digest =>
    have hu : (w.flightsEntry digest).2 = u := congrArg Prod.snd (Option.some.inj hm)
    rw [← hu, World.flightsEntry]
    split <;> rfl
  | lock flight =>
    obtain ⟨v, hv, he⟩ := Option.map_eq_some_iff.mp hm
    obtain ⟨-, rfl⟩ := Prod.mk.inj he
    simp only [World.lock] at hv
    split at hv
    · cases hv
      rfl
    · cases hv
  | releaseFlight digest flight =>
    obtain ⟨-, rfl⟩ := Prod.mk.inj (Option.some.inj hm)
    rw [World.releaseFlight]
    split
    · rfl
    · split <;> rfl
  | _ =>
    cases hm
    rfl

omit [DecidableEq T] in
private theorem counter_of_perform {t : T} {op : Op} {ch : Choice B P} {w u : World B T} {r : op.Res P}
    (m : Metric) (hm : (machine B P T).perform t op ch w = some (r, u)) :
    u.metrics.counter m = w.metrics.counter m + if op = .record m then 1 else 0 := by
  by_cases hop : ∀ n, op ≠ .record n
  · rw [metrics_of_perform hop hm, if_neg (hop m), UInt64.add_zero]
  · push Not at hop
    obtain ⟨n, rfl⟩ := hop
    cases hm
    simpa only [Op.record.injEq] using CacheMetrics.counter_record w.metrics n m

/-- A counter counts what the calls have recorded, as far as 64 bits go. -/
theorem counter_eq {A : Restriction T Op (Op.Res P) (Choice B P) (World B T)} (m : Metric)
    {d : Config T Op (Op.Res P) (World B T) (Reply P)}
    (run : Reaches (machine B P T) A (initial X policy tasks state) d) :
    d.world.metrics.counter m = .ofNat (d.history.countP fun e => e.op = .record m) := by
  have hp : Preserves (machine B P T) A (fun t => (tasks t).rule X policy)
      fun w h => w.metrics.counter m = .ofNat (h.countP fun e => e.op = .record m) := by
    intro t op ch w h r u hi _ _ hm
    rw [counter_of_perform m hm, hi, List.countP_cons, UInt64.ofNat_add]
    by_cases same : op = .record m <;> simp [same]
  have start : (World.new state : World B T).metrics.counter m = 0 := by
    cases m <;> rfl
  exact (run.preserves hp (obeys_initial tasks state) start).1

private theorem backendErrors_eq {d : Config T Op (Op.Res P) (World B T) (Reply P)}
    (run : Reaches (machine B P T) Restriction.none (initial X policy tasks state) d) :
    d.world.metrics.backendErrors = .ofNat (d.history.countP fun e => e.op.isReport) := by
  refine (counter_eq .backendError run).trans (congrArg _ (List.countP_congr fun e _ => ?_))
  rw [decide_eq_true_eq, Op.isReport_iff]

theorem bounded_program (task : Task) : (task.program X policy).Bounded 18 := by
  cases task with
  | getOrLoad request => exact (bounded_getOrLoad X policy request).bind fun _ => .ret 0 _
  | write n =>
    refine .call fun _ => .call fun result => ?_
    match result with
    | .error _ => exact .ret 16 _
    | .ok _ => exact .call fun _ => .ret 15 _

/-- Every run of finitely many calls comes to an end, whatever the backend does. -/
theorem all_return [Fintype T] : Inevitable (machine B P T) Restriction.none Config.Finished
    (initial X policy tasks state) := by
  refine inevitable_of_bounded
    (fun c => Tracks c.world (stages c.history) ∧
      c.Obeys (fun t => (tasks t).rule X policy) fun t => (tasks t).End X policy)
    (fun _ => 18) ?_ ?_ (fun _ _ hf => hf) ⟨tracks_initial, obeys_initial tasks state⟩
    fun t => bounded_program (tasks t)
  · rintro c d ⟨hi, hc⟩ hs
    exact ⟨hs.preserves tracks_preserved hc hi, hs.obeys hc⟩
  · rintro c ⟨hi, hc⟩ hn
    exact enabled_of_unfinished hi hc hn

/-- Whatever the backend answers or fails to answer: a call runs its loader at most once, returns an
error only if the loader did, and otherwise what the loader or a fresh envelope holds; a failed
loader leaves the cache alone; every backend error is counted once; and all calls return. -/
theorem getOrLoad_fails_open
    (encodes : ∀ t request, tasks t = .getOrLoad request → Encodable X policy request) :
    (∀ d, Reaches (machine B P T) Restriction.none (initial X policy tasks state) d →
      (∀ t request result, tasks t = .getOrLoad request → d.tasks t = .ret (.payload result) →
        FailsOpen X request result (d.history.own t)) ∧
      d.world.metrics.backendErrors = .ofNat (d.history.countP fun e => e.op.isReport)) ∧
    ∀ [Fintype T], Inevitable (machine B P T) Restriction.none Config.Finished
      (initial X policy tasks state) := by
  refine ⟨fun d run => ⟨fun t request result ht hr => ?_, backendErrors_eq run⟩, all_return⟩
  let Q (t : T) (reply : Reply P) (done : Done P) : Prop := ∀ request result,
    tasks t = .getOrLoad request → reply = .payload result → FailsOpen X request result done
  have hstart : (initial X policy tasks state).Obeys (fun _ _ _ => True) Q := by
    intro s
    cases hs : tasks s with
    | getOrLoad request =>
      have hp := ensures_getOrLoad (encodes s request hs)
      have hq : ((Task.getOrLoad request).program X policy).Ensures (Q s) [] := by
        refine (hp.mono fun a after ha request' result' ht' hr' => ?_).bind
        rw [hs] at ht'
        cases ht'
        cases hr'
        exact ha.1.failsOpen ha.2
      simpa [initial, hs] using hq
    | write n =>
      have hq : ((Task.write n).program X policy).Ensures (Q s) [] := by
        refine ⟨trivial, fun _ => ⟨trivial, fun result => ?_⟩⟩
        cases result with
        | error => exact fun _ _ ht' => by simp [hs] at ht'
        | ok => exact ⟨trivial, fun _ _ _ ht' => by simp [hs] at ht'⟩
      simpa [initial, hs] using hq
  exact (run.obeys hstart).returned hr request result ht rfl

end

/-- A call whose checks and whose write fail: the backend errors three times. -/
theorem call_survives_outage :
    ∃ d : Config Unit Op (Op.Res Bytes) (World Sample.adversary Unit) (Reply Bytes),
      d.tasks () = .ret (.payload (.ok [7])) ∧ faults (d.history.own ()) = 3 ∧
      FailsOpen Sample.externals ⟨Sample.keyInput, false⟩ (.ok [7]) (d.history.own ()) ∧
      d.world.metrics.backendErrors = .ofNat (d.history.countP fun e => e.op.isReport) := by
  let down : Choice Sample.adversary Bytes :=
    ⟨Sample.answers (.error (.backend "down")) (.error (.backend "down")), 5, .ok [7]⟩
  obtain ⟨d, run, seen⟩ := play_observed (M := machine Sample.adversary Bytes Unit)
    (A := Restriction.none)
    (c := initial Sample.externals {} (fun _ => .getOrLoad ⟨Sample.keyInput, false⟩) ())
    (List.replicate 18 ((), down))
    (fun d => decide (d.returned () = some (.payload (.ok [7])) ∧ faults (d.history.own ()) = 3))
    (by decide +kernel)
  obtain ⟨returned, failed⟩ := of_decide_eq_true seen
  have ht := Config.returned_eq_some.mp returned
  obtain ⟨calls, counted⟩ := (getOrLoad_fails_open fun _ request hr => by
    cases hr
    exact fun _ _ p now built => Sample.encodes rfl built p _ now).1 d run
  exact ⟨d, ht, failed, calls () _ _ rfl ht, counted⟩

end RbatisCache.CacheInterceptor
