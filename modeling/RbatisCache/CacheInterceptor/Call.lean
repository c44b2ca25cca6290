import RbatisCache.CacheInterceptor.Model
import RbatisCache.Interleaving.Protocol

/-! What one call does, in its own terms: how far it is with its flight, and what it has made sure
of before each operation that the other calls can notice. -/
namespace RbatisCache.CacheInterceptor
open Interleaving Interleaving.Prog

/-- What the holder of a flight lock has done under it. -/
inductive Phase where
  | locked | missed | started | loaded | filled
  deriving DecidableEq

/-- How far a call is with its flight. -/
inductive Stage where
  | outside
  | waiting (digest : String) (flight : FlightId)
  | inside (digest : String) (flight : FlightId) (phase : Phase)
  | unlocked (digest : String) (flight : FlightId)
  | released (flight : FlightId)
  | gone
  deriving DecidableEq

def Stage.next {P : Type} : (op : Op) → op.Res P → Stage → Stage
  | .flightsEntry digest, flight, .outside => .waiting digest flight
  | .lock _, _, .waiting digest flight => .inside digest flight .locked
  | .record .load, _, .inside digest flight .locked => .inside digest flight .missed
  | .loaderStart, _, .inside digest flight .missed => .inside digest flight .started
  | .databaseRead, _, .inside digest flight .started => .inside digest flight .loaded
  | .backend (.put _ _ _), _, .inside digest flight .loaded => .inside digest flight .filled
  | .unlock _, _, .inside digest flight _ => .unlocked digest flight
  | .releaseFlight _ _, _, .unlocked _ flight => .released flight
  | .dropFlight _, _, .unlocked _ _ => .gone
  | .dropFlight _, _, .released _ => .gone
  | _, _, s => s

section
variable {P : Type}

abbrev Done (P : Type) := List (Sigma (Op.Res P))

def stageOf (done : Done P) : Stage := done.foldr (fun e s => s.next e.1 e.2) .outside

@[simp] theorem stageOf_cons (op : Op) (r : op.Res P) (done : Done P) :
    stageOf (⟨op, r⟩ :: done) = (stageOf done).next op r := rfl

theorem loaderStart_of_started {done : Done P} {d : String} {f : FlightId}
    (h : stageOf done = .inside d f .started) : ⟨.loaderStart, ()⟩ ∈ done := by
  induction done with
  | nil => cases h
  | cons e done ih =>
    obtain ⟨op, r⟩ := e
    by_cases he : op = .loaderStart
    · subst he
      exact List.mem_cons_self
    · refine List.mem_cons_of_mem _ (ih ?_)
      rw [stageOf_cons] at h
      unfold Stage.next at h
      split at h <;> simp_all

/-- The key of a request under the generation the call has read. -/
structure Keyed (X : Externals P) (input : CacheKeyInput) (g : UInt64) (key : CacheKey)
    (done : Done P) : Prop where
  read : [⟨.backend (.generation input.nameSpace), .ok g⟩] <:+ done
  built : CacheKey.build X input g = .ok key

/-- The check that has just ended found nothing. -/
inductive Missed (X : Externals P) (key : CacheKey) : Done P → Prop
  | absent (done : Done P) : Missed X key (⟨.backend (.get key.digest), .ok none⟩ :: done)
  | failed (e : CacheError) (done : Done P) :
      Missed X key (⟨.record .backendError, ()⟩ :: ⟨.backend (.get key.digest), .error e⟩ :: done)
  | undecodable {bytes : Bytes} {e : CacheError} (done : Done P)
      (decoded : CacheEnvelope.decode X bytes = .error e) :
      Missed X key (⟨.backend (.get key.digest), .ok (some bytes)⟩ :: done)
  | stale {bytes : Bytes} {envelope : CacheEnvelope P} (now : UInt64) (done : Done P)
      (decoded : CacheEnvelope.decode X bytes = .ok envelope)
      (fresh : envelope.isFresh key.generation now = false) :
      Missed X key (⟨.nowMs, now⟩ :: ⟨.backend (.get key.digest), .ok (some bytes)⟩ :: done)

/-- A check found the payload. -/
structure Found (X : Externals P) (key : CacheKey) (p : P) (done : Done P) : Prop where
  hit : ∃ bytes envelope, ⟨.backend (.get key.digest), .ok (some bytes)⟩ ∈ done ∧
    CacheEnvelope.decode X bytes = .ok envelope ∧ envelope.payload = p

/-- The request may use the cache at all. -/
def CacheRequest.Cacheable (X : Externals P) (request : CacheRequest) : Prop :=
  ∃ metadata, SqlMetadata.parse X.parser request.key.sql = .ok metadata ∧
    request.inTransaction = false ∧ metadata.kind = .select

/-- Why a call runs its loader without a flight. -/
def Unkeyed (X : Externals P) (request : CacheRequest) (done : Done P) : Prop :=
  request.Cacheable X → (∃ n e, ⟨.backend (.generation n), .error e⟩ ∈ done) ∨
    ∃ g e, CacheKey.build X request.key g = .error e

/-- Why a call leaves the flight after a load without having filled the cache. -/
inductive NotStored (X : Externals P) (policy : CachePolicy) (key : CacheKey) (done : Done P) : Prop
  | failed {e : CacheError} (read : ⟨.databaseRead, .error e⟩ ∈ done)
  | oversized {p : P} (read : ⟨.databaseRead, .ok p⟩ ∈ done) (size : policy.maxValueSize < X.len p)
  | unencodable {p : P} {now : UInt64} {e : CacheError} (read : ⟨.databaseRead, .ok p⟩ ∈ done)
      (encoded : (CacheEnvelope.new key p policy.ttl now).encode X = .error e)

/-- What a `get_or_load` call has made sure of before each operation. -/
def callRule (X : Externals P) (policy : CachePolicy) (request : CacheRequest) (done : Done P) :
    Op → Prop
  | .backend (.generation n) => done = [] ∧ n = request.key.nameSpace
  | .backend (.get k) => ∃ g key, Keyed X request.key g key done ∧ key.digest = k
  | .backend (.put k v _) => ∃ g key p now, Keyed X request.key g key done ∧ key.digest = k ∧
      ⟨.databaseRead, .ok p⟩ ∈ done ∧
      (CacheEnvelope.new key p policy.ttl now).encode X = .ok v ∧
      ∃ f, stageOf done = .inside k f .loaded
  | .backend (.bumpGeneration _) | .databaseWrite => False
  | .flightsEntry d => stageOf done = .outside ∧ ∃ g key, Keyed X request.key g key done ∧
      key.digest = d
  | .lock f => ∃ d, stageOf done = .waiting d f
  | .record .load => stageOf done = .outside ∨ ∃ g key f, Keyed X request.key g key done ∧
      stageOf done = .inside key.digest f .locked ∧ Missed X key done
  | .loaderStart => (stageOf done = .outside ∧ Unkeyed X request done) ∨
      ∃ g key f, Keyed X request.key g key done ∧ stageOf done = .inside key.digest f .missed
  | .databaseRead => (stageOf done = .outside ∧ Unkeyed X request done) ∨
      ∃ g key f, Keyed X request.key g key done ∧ stageOf done = .inside key.digest f .started
  | .unlock f => ∃ g key phase, Keyed X request.key g key done ∧
      stageOf done = .inside key.digest f phase ∧
      (phase = .locked ∨ phase = .filled ∨ phase = .loaded ∧ NotStored X policy key done)
  | .releaseFlight d f => stageOf done = .unlocked d f
  | .dropFlight f => (∃ d, stageOf done = .unlocked d f) ∨ stageOf done = .released f
  | _ => True

/-- How a call came by the payload it returns. -/
def Accounted (X : Externals P) (request : CacheRequest) (p : P) (done : Done P) : Prop :=
  ⟨.databaseRead, .ok p⟩ ∈ done ∨ ∃ g key, Keyed X request.key g key done ∧ Found X key p done

/-- Why a call fails. -/
def Failed (X : Externals P) (policy : CachePolicy) (request : CacheRequest) (e : CacheError)
    (done : Done P) : Prop :=
  ⟨.databaseRead, .error e⟩ ∈ done ∨
    ∃ g key, Keyed X request.key g key done ∧ NotStored X policy key done

/-- What has happened when a call returns. -/
structure CallEnd (X : Externals P) (policy : CachePolicy) (request : CacheRequest)
    (result : Except CacheError P) (done : Done P) : Prop where
  stage : stageOf done = .outside ∨ stageOf done = .gone
  ok : ∀ p, result = .ok p → Accounted X request p done
  error : ∀ e, result = .error e → Failed X policy request e done

theorem NotStored.grow {X : Externals P} {policy : CachePolicy} {key : CacheKey}
    {done later : Done P} (h : NotStored X policy key done) (hl : done <:+ later) :
    NotStored X policy key later := by
  cases h with
  | failed read => exact .failed (hl.subset read)
  | oversized read size => exact .oversized (hl.subset read) size
  | unencodable read encoded => exact .unencodable (hl.subset read) encoded

/-! ### The calls obey -/

variable {X : Externals P} {policy : CachePolicy} {request : CacheRequest} {done : Done P}
variable {g : UInt64} {key : CacheKey}

theorem Keyed.grow {input : CacheKeyInput} {later : Done P} (h : Keyed X input g key done)
    (hl : done <:+ later) : Keyed X input g key later := ⟨h.read.trans hl, h.built⟩

/-- What a check does and what it finds. -/
inductive Check (X : Externals P) (key : CacheKey) : Option P → Done P → Prop
  | found {bytes : Bytes} {envelope : CacheEnvelope P} {now : UInt64}
      (decoded : CacheEnvelope.decode X bytes = .ok envelope)
      (fresh : envelope.isFresh key.generation now = true) :
      Check X key (some envelope.payload)
        [⟨.nowMs, now⟩, ⟨.backend (.get key.digest), .ok (some bytes)⟩]
  | absent : Check X key none [⟨.backend (.get key.digest), .ok none⟩]
  | failed (e : CacheError) :
      Check X key none [⟨.record .backendError, ()⟩, ⟨.backend (.get key.digest), .error e⟩]
  | undecodable {bytes : Bytes} {e : CacheError} (decoded : CacheEnvelope.decode X bytes = .error e) :
      Check X key none [⟨.backend (.get key.digest), .ok (some bytes)⟩]
  | stale {bytes : Bytes} {envelope : CacheEnvelope P} {now : UInt64}
      (decoded : CacheEnvelope.decode X bytes = .ok envelope)
      (fresh : envelope.isFresh key.generation now = false) :
      Check X key none [⟨.nowMs, now⟩, ⟨.backend (.get key.digest), .ok (some bytes)⟩]

theorem obeys_check {rule : Done P → Op → Prop} (get : rule done (.backend (.get key.digest)))
    (report : ∀ done, rule done (.record .backendError)) (clock : ∀ done, rule done .nowMs) :
    (cached X key).Obeys rule
      (fun a later => ∃ checked, later = checked ++ done ∧ Check X key a checked) done := by
  unfold cached
  simp only [bind_eq, perform_bind, pure_eq]
  refine ⟨get, fun result => ?_⟩
  cases result with
  | error e => exact ⟨report _, fun _ => ⟨_, rfl, .failed e⟩⟩
  | ok stored =>
    cases stored with
    | none => exact ⟨_, rfl, .absent⟩
    | some bytes =>
      dsimp only
      split
      · next decoded => exact ⟨_, rfl, .undecodable decoded⟩
      · next envelope decoded =>
        refine ⟨clock _, fun now =>
          ⟨[⟨.nowMs, now⟩, ⟨.backend (.get key.digest), .ok (some bytes)⟩], rfl, ?_⟩⟩
        split
        · next fresh => exact .found decoded fresh
        · next fresh => exact .stale decoded (Bool.eq_false_iff.mpr fresh)

theorem ensures_check : (cached X key).Ensures
    (fun a later => ∃ checked, later = checked ++ done ∧ Check X key a checked) done :=
  obeys_check trivial (fun _ => trivial) fun _ => trivial

private theorem obeys_cached (hk : Keyed X request.key g key done) :
    (cached X key).Obeys (callRule X policy request)
      (fun a after => stageOf after = stageOf done ∧ (a = none → Missed X key after) ∧
        ∀ p, a = some p → Found X key p after) done := by
  refine (obeys_check ⟨g, key, hk, rfl⟩ (fun _ => trivial) fun _ => trivial).mono ?_
  rintro a _ ⟨checked, rfl, check⟩
  cases check with
  | @found bytes envelope now decoded fresh =>
    refine ⟨rfl, nofun, fun p hp => ⟨bytes, envelope, by simp, decoded, Option.some.inj hp⟩⟩
  | absent => exact ⟨rfl, fun _ => .absent done, nofun⟩
  | failed e => exact ⟨rfl, fun _ => .failed e done, nofun⟩
  | undecodable decoded => exact ⟨rfl, fun _ => .undecodable done decoded, nofun⟩
  | stale decoded fresh => exact ⟨rfl, fun _ => .stale _ done decoded fresh, nofun⟩

theorem Unkeyed.cons {e : Sigma (Op.Res P)} (h : Unkeyed X request done) :
    Unkeyed X request (e :: done) := by
  intro hc
  rcases h hc with ⟨n, e, he⟩ | hb
  · exact .inl ⟨n, e, List.mem_cons_of_mem _ he⟩
  · exact .inr hb

private theorem obeys_load_unkeyed (hs : stageOf done = .outside) (hu : Unkeyed X request done) :
    load.Obeys (callRule X policy request)
      (fun a after => stageOf after = .outside ∧ ⟨.databaseRead, a⟩ ∈ after) done := by
  simp only [load, loader, bind_eq, perform_bind, pure_eq]
  refine ⟨.inl hs, fun _ => ⟨.inl ⟨?_, hu.cons⟩, fun _ => ⟨.inl ⟨?_, hu.cons.cons⟩, fun result =>
    ⟨trivial, fun _ => ?_⟩⟩⟩⟩
  · simp [hs, Stage.next]
  · simp [hs, Stage.next]
  · exact ⟨by simp [hs, Stage.next], by simp⟩

private theorem obeys_load_locked {f : FlightId} (hk : Keyed X request.key g key done)
    (hs : stageOf done = .inside key.digest f .locked) (hm : Missed X key done) :
    load.Obeys (callRule X policy request)
      (fun a after => stageOf after = .inside key.digest f .loaded ∧ ⟨.databaseRead, a⟩ ∈ after)
      done := by
  simp only [load, loader, bind_eq, perform_bind, pure_eq]
  have hk1 := hk.grow (List.suffix_cons ⟨.record .load, ()⟩ done)
  have hk2 := hk1.grow (List.suffix_cons ⟨.loaderStart, ()⟩ _)
  refine ⟨.inr ⟨g, key, f, hk, hs, hm⟩, fun _ => ⟨.inr ⟨g, key, f, hk1, ?_⟩, fun _ =>
    ⟨.inr ⟨g, key, f, hk2, ?_⟩, fun result => ⟨trivial, fun _ => ?_⟩⟩⟩⟩
  · simp [hs, Stage.next]
  · simp [hs, Stage.next]
  · exact ⟨by simp [hs, Stage.next], by simp⟩

private theorem obeys_backfill {f : FlightId} {p : P} (hk : Keyed X request.key g key done)
    (hs : stageOf done = .inside key.digest f .loaded) (hp : ⟨.databaseRead, .ok p⟩ ∈ done) :
    (backfill X policy key p).Obeys (callRule X policy request)
      (fun a after => (∃ phase, stageOf after = .inside key.digest f phase ∧
        (phase = .filled ∨ phase = .loaded ∧ NotStored X policy key after)) ∧
        ∀ e, a = .error e → NotStored X policy key after) done := by
  simp only [backfill, bind_eq, perform_bind, pure_eq]
  split
  · refine ⟨trivial, fun now => ?_⟩
    dsimp only
    cases he : (CacheEnvelope.new key p policy.ttl now).encode X with
    | error e =>
      have hn : NotStored X policy key (⟨.nowMs, now⟩ :: done) :=
        .unencodable (List.mem_cons_of_mem _ hp) he
      exact ⟨⟨.loaded, hs, .inr ⟨rfl, hn⟩⟩, fun _ _ => hn⟩
    | ok envelope =>
      have hk' := hk.grow (List.suffix_cons ⟨.nowMs, now⟩ done)
      refine ⟨⟨g, key, p, now, hk', rfl, List.mem_cons_of_mem _ hp, he, f, hs⟩, fun result => ?_⟩
      match result with
      | .error _ =>
        exact ⟨trivial, fun _ => ⟨⟨.filled, by simp [hs, Stage.next], .inl rfl⟩, nofun⟩⟩
      | .ok _ => exact ⟨⟨.filled, by simp [hs, Stage.next], .inl rfl⟩, nofun⟩
  · next hsize =>
    exact ⟨⟨.loaded, hs, .inr ⟨rfl, .oversized hp (Nat.lt_of_not_le hsize)⟩⟩, nofun⟩

private theorem obeys_leaveFlight {f : FlightId} {phase : Phase} (hk : Keyed X request.key g key done)
    (hs : stageOf done = .inside key.digest f phase)
    (hp : phase = .locked ∨ phase = .filled ∨ phase = .loaded ∧ NotStored X policy key done) :
    (leaveFlight key f).Obeys (callRule X policy request)
      (fun _ after => stageOf after = .gone) done := by
  simp only [leaveFlight, bind_eq, perform_bind]
  refine ⟨⟨g, key, phase, hk, hs, hp⟩, fun _ => ⟨?_, fun _ => ⟨.inr ?_, fun _ => ?_⟩⟩⟩
  · simp [callRule, hs, Stage.next]
  · simp [hs, Stage.next]
  · simp [Obeys, hs, Stage.next]

private theorem obeys_abandonFlight {f : FlightId} {phase : Phase} (hk : Keyed X request.key g key done)
    (hs : stageOf done = .inside key.digest f phase)
    (hp : phase = .locked ∨ phase = .filled ∨ phase = .loaded ∧ NotStored X policy key done) :
    (abandonFlight f).Obeys (callRule X policy request)
      (fun _ after => stageOf after = .gone) done := by
  simp only [abandonFlight, bind_eq, perform_bind]
  refine ⟨⟨g, key, phase, hk, hs, hp⟩, fun _ => ⟨.inl ⟨key.digest, ?_⟩, fun _ => ?_⟩⟩
  · simp [hs, Stage.next]
  · simp [Obeys, hs, Stage.next]

private theorem obeys_flightSection (hk : Keyed X request.key g key done)
    (hs : stageOf done = .outside) :
    (flightSection X policy key).Obeys (callRule X policy request)
      (CallEnd X policy request) done := by
  simp only [flightSection, bind_eq, perform_bind, pure_eq]
  refine ⟨⟨hs, g, key, hk, rfl⟩, fun flight => ⟨⟨key.digest, by simp [hs, Stage.next]⟩, fun _ => ?_⟩⟩
  have hk1 := (hk.grow (List.suffix_cons ⟨.flightsEntry key.digest, flight⟩ done)).grow
    (List.suffix_cons ⟨.lock flight, ()⟩ _)
  refine (obeys_cached hk1).andThen fun a checked ⟨hstage, hmiss, hfound⟩ hc => ?_
  have hk2 := hk1.grow hc
  have hs2 : stageOf checked = .inside key.digest flight .locked := by
    rw [hstage]
    simp [hs, Stage.next]
  match a with
  | some p =>
    refine ⟨trivial, fun _ => ?_⟩
    have hk3 := hk2.grow (List.suffix_cons ⟨.record .hit, ()⟩ checked)
    refine (obeys_leaveFlight hk3 hs2 (.inl rfl)).andThen fun _ left hgone hl => ?_
    refine ⟨.inr hgone, fun q hq => .inr ⟨g, key, hk3.grow hl, ?_⟩, nofun⟩
    cases hq
    obtain ⟨bytes, envelope, hget, hd, hp⟩ := hfound p rfl
    exact ⟨bytes, envelope, hl.subset (List.mem_cons_of_mem _ hget), hd, hp⟩
  | none =>
    refine (obeys_load_locked hk2 hs2 (hmiss rfl)).andThen fun a loaded ⟨hs3, hread⟩ hl => ?_
    have hk3 := hk2.grow hl
    match a with
    | .error e =>
      refine (obeys_abandonFlight hk3 hs3 (.inr (.inr ⟨rfl, .failed hread⟩))).andThen
        fun _ left hgone hl' => ?_
      refine ⟨.inr hgone, nofun, fun e' he => .inl ?_⟩
      cases he
      exact hl'.subset hread
    | .ok p =>
      refine (obeys_backfill hk3 hs3 hread).andThen fun a filled ⟨⟨phase, hs4, hphase⟩, herr⟩ hf => ?_
      have hk4 := hk3.grow hf
      match a with
      | .error e =>
        refine (obeys_abandonFlight hk4 hs4 (.inr hphase)).andThen fun _ left hgone hl' => ?_
        refine ⟨.inr hgone, nofun, fun e' _ => .inr ⟨g, key, hk4.grow hl', (herr e rfl).grow hl'⟩⟩
      | .ok _ =>
        refine (obeys_leaveFlight hk4 hs4 (.inr hphase)).andThen fun _ left hgone hl' => ?_
        refine ⟨.inr hgone, fun q hq => .inl ?_, nofun⟩
        cases hq
        exact (hf.trans hl').subset hread

/-- A call that loads without a flight. -/
theorem obeys_unkeyed (hs : stageOf done = .outside) (hu : Unkeyed X request done) :
    load.Obeys (callRule X policy request) (CallEnd X policy request) done := by
  refine (obeys_load_unkeyed hs hu).mono fun a after ⟨hstage, hread⟩ => ⟨.inl hstage, ?_, ?_⟩
  · rintro p rfl
    exact .inl hread
  · rintro e rfl
    exact .inl hread

private theorem obeys_bypass (hc : ¬ request.Cacheable X) :
    bypass.Obeys (callRule X policy request) (CallEnd X policy request) [] := by
  simp only [bypass, bind_eq, perform_bind]
  exact ⟨trivial, fun _ => obeys_unkeyed rfl fun h => absurd h hc⟩

private theorem obeys_getOrLoad :
    (getOrLoad X policy request).Obeys (callRule X policy request)
      (CallEnd X policy request) [] := by
  unfold getOrLoad
  split
  · next hm =>
    refine obeys_bypass fun ⟨metadata, hp, _⟩ => ?_
    rw [hm] at hp
    cases hp
  · next metadata hm =>
    split
    · next hb =>
      refine obeys_bypass fun ⟨metadata', hp, htx, hkind⟩ => ?_
      rw [hm] at hp
      cases hp
      simp [htx, hkind] at hb
    · simp only [bind_eq, perform_bind, pure_eq]
      refine ⟨⟨rfl, rfl⟩, fun result => ?_⟩
      match result with
      | .error e => exact ⟨trivial, fun _ => obeys_unkeyed rfl fun _ =>
          .inl ⟨request.key.nameSpace, e, by simp⟩⟩
      | .ok g =>
        dsimp only
        split
        · next e hb => exact obeys_unkeyed rfl fun _ => .inr ⟨g, e, hb⟩
        · next key hb =>
          refine (obeys_cached ⟨List.suffix_refl _, hb⟩).andThen
            fun a checked ⟨hstage, _, hfound⟩ hc => ?_
          match a with
          | some p =>
            refine ⟨trivial, fun _ => ⟨.inl hstage, fun q hq => .inr ⟨g, key, ⟨?_, hb⟩, ?_⟩, nofun⟩⟩
            · exact hc.trans (List.suffix_cons _ _)
            · cases hq
              obtain ⟨bytes, envelope, hget, hd, hp⟩ := hfound p rfl
              exact ⟨bytes, envelope, List.mem_cons_of_mem _ hget, hd, hp⟩
          | none =>
            refine ⟨trivial, fun _ => obeys_flightSection ⟨?_, hb⟩ hstage⟩
            exact hc.trans (List.suffix_cons _ _)

/-- What a writer has made sure of. -/
def writerRule (nameSpace : String) (done : Done P) : Op → Prop
  | .backend (.bumpGeneration n) => n = nameSpace ∧ ⟨.databaseWrite, ()⟩ ∈ done
  | .databaseWrite | .record .invalidation => True
  | _ => False

def Task.rule (X : Externals P) (policy : CachePolicy) : Task → Done P → Op → Prop
  | .getOrLoad request => callRule X policy request
  | .write nameSpace => writerRule nameSpace

def Task.End (X : Externals P) (policy : CachePolicy) : Task → Reply P → Done P → Prop
  | .getOrLoad request, reply, done => ∃ a, reply = .payload a ∧ CallEnd X policy request a done
  | .write _, _, done => stageOf done = .outside

theorem obeys_program (task : Task) :
    (task.program X policy).Obeys (task.rule X policy) (task.End X policy) [] := by
  cases task with
  | getOrLoad request => exact (obeys_getOrLoad.mono fun a done h => ⟨a, rfl, h⟩).bind
  | write n =>
    simp only [Task.program, invalidateAfterCommit, bind_eq, perform_bind, call_bind, pure_eq]
    refine ⟨trivial, fun _ => ⟨⟨rfl, by simp⟩, fun result => ?_⟩⟩
    match result with
    | .error _ => rfl
    | .ok _ => exact ⟨trivial, fun _ => rfl⟩

/-- Every task of an interceptor obeys its protocol from the start. -/
theorem obeys_initial {B : CacheBackend} {T : Type} [DecidableEq T] (tasks : T → Task)
    (backend : B.State) :
    (initial X policy tasks backend).Obeys (fun t => (tasks t).rule X policy)
      fun t => (tasks t).End X policy :=
  fun t => obeys_program (tasks t)

end
end RbatisCache.CacheInterceptor
