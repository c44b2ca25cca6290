import RbatisCache.CacheInterceptor.Call

/-! What a call of `get_or_load` has made sure of before it goes to the backend, and of what it serves from
there. -/
namespace RbatisCache.CacheInterceptor
open Interleaving Interleaving.Prog

section
variable {P : Type}

/-- What a call has made sure of before it goes to the backend. -/
def backendRule (X : Externals P) (policy : CachePolicy) (request : CacheRequest) (done : Done P) :
    Op → Prop
  | .backend (.put _ bytes ttl) => request.Cacheable X ∧ ttl = policy.ttl ∧ ∃ key p now,
      ⟨.nowMs, now⟩ ∈ done ∧ X.len p ≤ policy.maxValueSize ∧
      (CacheEnvelope.new key p policy.ttl now).encode X = .ok bytes
  | .backend _ => request.Cacheable X
  | _ => True

/-- The payload came from the backend, and was fresh by the clock of the call. -/
structure ServedFrom (X : Externals P) (request : CacheRequest) (p : P) (done : Done P)
    (key : CacheKey) (bytes : Bytes) (envelope : CacheEnvelope P) (now : UInt64) : Prop where
  cacheable : request.Cacheable X
  keyed : Keyed X request.key key.generation key done
  looked : ∃ before,
    ⟨.nowMs, now⟩ :: ⟨.backend (.get key.digest), .ok (some bytes)⟩ :: before <:+ done
  decoded : CacheEnvelope.decode X bytes = .ok envelope
  fresh : envelope.isFresh key.generation now = true
  payload : envelope.payload = p

def Served (X : Externals P) (request : CacheRequest) (p : P) (done : Done P) : Prop :=
  ∃ key bytes envelope now, ServedFrom X request p done key bytes envelope now

/-- A call returns what it has loaded itself, or what the backend has served. -/
def Sourced (X : Externals P) (request : CacheRequest) (result : Except CacheError P)
    (done : Done P) : Prop :=
  ∀ p, result = .ok p → ⟨.databaseRead, .ok p⟩ ∈ done ∨ Served X request p done

variable {X : Externals P} {policy : CachePolicy} {request : CacheRequest} {done later : Done P}
variable {key : CacheKey} {p : P} {result : Except CacheError P}

theorem Served.grow (served : Served X request p done) (grown : done <:+ later) :
    Served X request p later := by
  obtain ⟨key, bytes, envelope, now, hit⟩ := served
  obtain ⟨before, looked⟩ := hit.looked
  exact ⟨key, bytes, envelope, now, hit.cacheable, hit.keyed.grow grown, ⟨before, looked.trans grown⟩,
    hit.decoded, hit.fresh, hit.payload⟩

private theorem sourced_error (e : CacheError) : Sourced X request (.error e) done := nofun

private theorem sourced_of_read (read : ⟨.databaseRead, .ok p⟩ ∈ done) :
    Sourced X request (.ok p) done := by
  intro q ok
  cases ok
  exact .inl read

/-! ### The parts of a call -/

private theorem ensures_load_reads :
    load.Ensures (fun a (after : Done P) => ⟨.databaseRead, a⟩ ∈ after) done := by
  simp only [load, loader, bind_eq, perform_bind, pure_eq]
  exact ⟨trivial, fun _ => ⟨trivial, fun _ => ⟨trivial, fun a => ⟨trivial, fun _ => by simp [Obeys]⟩⟩⟩⟩

/-- Whether an operation stays away from the backend. -/
def Op.away : Op → Bool
  | .backend _ => false
  | _ => true

private theorem backendRule_of_away {op : Op} (away : op.away = true) :
    backendRule X policy request done op := by
  cases op with
  | backend op => cases away
  | _ => trivial

private theorem obeys_away {α : Type} {Q : α → Done P → Prop} {prog : Prog Op (Op.Res P) α}
    (ensures : prog.Ensures Q done) (only : prog.Only fun op => op.away = true) :
    prog.Obeys (backendRule X policy request) Q done :=
  ensures.obeys only fun _ _ => backendRule_of_away

private theorem only_load : (load : Prog Op (Op.Res P) _).Only fun op => op.away = true :=
  ⟨rfl, fun _ => ⟨rfl, fun _ => ⟨rfl, fun _ => ⟨rfl, fun _ => trivial⟩⟩⟩⟩

private theorem obeys_load : load.Obeys (backendRule X policy request)
    (fun a after => ⟨.databaseRead, a⟩ ∈ after) done :=
  obeys_away ensures_load_reads only_load

private theorem obeys_leave {flight : FlightId} : (leaveFlight key flight).Obeys
    (backendRule X policy request) (fun _ _ => True) done :=
  obeys_away ensures_true ⟨rfl, fun _ => ⟨rfl, fun _ => ⟨rfl, fun _ => trivial⟩⟩⟩

private theorem obeys_abandon {flight : FlightId} : (abandonFlight flight).Obeys
    (backendRule X policy request) (fun _ _ => True) done :=
  obeys_away ensures_true ⟨rfl, fun _ => ⟨rfl, fun _ => trivial⟩⟩

private theorem obeys_lookup (cacheable : request.Cacheable X)
    (keyed : Keyed X request.key key.generation key done) :
    (cached X key).Obeys (backendRule X policy request)
      (fun a after => ∀ p, a = some p → Served X request p after) done := by
  refine (obeys_check cacheable (fun _ => trivial) fun _ => trivial).mono ?_
  rintro a _ ⟨checked, rfl, check⟩ p rfl
  have grown := keyed.grow (List.suffix_append checked done)
  cases check with
  | @found bytes envelope now decoded fresh =>
    exact ⟨key, bytes, envelope, now, cacheable, grown, ⟨done, List.suffix_refl _⟩, decoded, fresh, rfl⟩

private theorem obeys_fill (cacheable : request.Cacheable X) :
    (backfill X policy key p).Obeys (backendRule X policy request) (fun _ _ => True) done := by
  simp only [backfill, bind_eq, perform_bind, pure_eq]
  split
  · next size =>
    refine ⟨trivial, fun now => ?_⟩
    dsimp only
    cases encoded : (CacheEnvelope.new key p policy.ttl now).encode X with
    | error e => trivial
    | ok envelope =>
      refine ⟨⟨cacheable, rfl, key, p, now, List.mem_cons_self, size, encoded⟩, fun result => ?_⟩
      cases result with
      | error e => exact ⟨trivial, fun _ => trivial⟩
      | ok _ => trivial
  · trivial

private theorem obeys_section (cacheable : request.Cacheable X)
    (keyed : Keyed X request.key key.generation key done) :
    (flightSection X policy key).Obeys (backendRule X policy request) (Sourced X request) done := by
  simp only [flightSection, bind_eq, perform_bind, pure_eq]
  refine ⟨trivial, fun flight => ⟨trivial, fun _ => ?_⟩⟩
  refine (obeys_lookup cacheable (keyed.grow ((List.suffix_cons _ _).trans
    (List.suffix_cons _ _)))).andThen fun a checked served _ => ?_
  cases a with
  | some p =>
    refine ⟨trivial, fun _ => obeys_leave.andThen fun _ left _ grown q ok => .inr ?_⟩
    cases ok
    exact (served p rfl).grow ((List.suffix_cons _ _).trans grown)
  | none =>
    refine obeys_load.andThen fun a loaded read _ => ?_
    cases a with
    | error e => exact obeys_abandon.andThen fun _ _ _ _ => sourced_error e
    | ok p =>
      refine (obeys_fill cacheable).andThen fun filled after _ grown => ?_
      cases filled with
      | error e => exact obeys_abandon.andThen fun _ _ _ _ => sourced_error e
      | ok _ =>
        exact obeys_leave.andThen fun _ left _ last => sourced_of_read (last.subset (grown.subset read))

private theorem obeys_sourced : (getOrLoad X policy request).Obeys (backendRule X policy request)
    (Sourced X request) [] := by
  have loads (before : Done P) : load.Obeys (backendRule X policy request) (Sourced X request) before :=
    obeys_load.mono fun a after read p ok => by
      cases ok
      exact .inl read
  unfold getOrLoad
  split
  · exact ⟨trivial, fun _ => loads _⟩
  · next metadata parsed =>
    split
    · exact ⟨trivial, fun _ => loads _⟩
    · next plain =>
      have cacheable : request.Cacheable X := by
        exact ⟨metadata, parsed, by simpa using plain⟩
      simp only [bind_eq, perform_bind, pure_eq]
      refine ⟨cacheable, fun result => ?_⟩
      cases result with
      | error e => exact ⟨trivial, fun _ => loads _⟩
      | ok g =>
        dsimp only
        split
        · exact loads _
        · next key built =>
          obtain rfl := CacheKey.build_generation built
          have keyed : Keyed X request.key key.generation key
              [⟨.backend (.generation request.key.nameSpace), .ok key.generation⟩] :=
            ⟨List.suffix_refl _, built⟩
          refine (obeys_lookup cacheable keyed).andThen fun a checked served grown => ?_
          cases a with
          | some p =>
            refine ⟨trivial, fun _ q ok => .inr ?_⟩
            cases ok
            exact (served p rfl).grow (List.suffix_cons _ _)
          | none =>
            exact ⟨trivial, fun _ =>
              obeys_section cacheable (keyed.grow (grown.trans (List.suffix_cons _ _)))⟩

/-- A writer only invalidates. -/
def Task.backendRule (X : Externals P) (policy : CachePolicy) : Task → Done P → Op → Prop
  | .getOrLoad request => CacheInterceptor.backendRule X policy request
  | .write _ => fun _ _ => True

def Task.Sourced (X : Externals P) : Task → Reply P → Done P → Prop
  | .getOrLoad request, reply, done => ∀ result, reply = .payload result →
      CacheInterceptor.Sourced X request result done
  | .write _, _, _ => True

theorem obeys_task_sourced (task : Task) : (task.program X policy).Obeys
    (task.backendRule X policy) (task.Sourced X) [] := by
  cases task with
  | getOrLoad request =>
    refine (obeys_sourced.mono fun result after sourced => ?_).bind
    intro a same
    cases same
    exact sourced
  | write n => exact ensures_true

end
end RbatisCache.CacheInterceptor
