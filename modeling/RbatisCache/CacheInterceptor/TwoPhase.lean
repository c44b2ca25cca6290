import RbatisCache.CacheInterceptor.Freshness

/-! The two-phase API. A client that finds nothing with `lookup` reads the database and hands what it
has read to `store`, which reads the generation again: a bump may have come between the two. -/
namespace RbatisCache.CacheInterceptor
open Interleaving Interleaving.Prog

section
variable {P : Type} (X : Externals P) (policy : CachePolicy)

/-- `CacheInterceptor::lookup`. -/
def lookup (input : CacheKeyInput) : Prog Op (Op.Res P) (Except CacheError (Option P)) := do
  match ← perform (Op.backend (.generation input.nameSpace)) with
  | .error _ =>
    perform (Op.record .backendError)
    return .ok none
  | .ok generation =>
    match CacheKey.build X input generation with
    | .error _ => return .ok none
    | .ok key => return .ok (← cached X key)

/-- `CacheInterceptor::store`. -/
def store (input : CacheKeyInput) (payload : P) (ttl : Duration) :
    Prog Op (Op.Res P) (Except CacheError Unit) :=
  if policy.maxValueSize < X.len payload then return .ok ()
  else do
    match ← perform (Op.backend (.generation input.nameSpace)) with
    | .error _ =>
      perform (Op.record .backendError)
      return .ok ()
    | .ok generation =>
      match CacheKey.build X input generation with
      | .error e => return .error e
      | .ok key =>
        let now ← perform Op.nowMs
        match (CacheEnvelope.new key payload ttl now).encode X with
        | .error e => return .error e
        | .ok envelope =>
          match ← perform (Op.backend (.put key.digest envelope ttl)) with
          | .error _ =>
            perform (Op.record .backendError)
            return .ok ()
          | .ok _ => return .ok ()

end

namespace TwoPhase

inductive Task where
  | query (input : CacheKeyInput) (ttl : Duration)
  | write (nameSpace : String)

inductive Reply (P : Type) where
  | found (payload : P)
  | stored (payload : P) (result : Except CacheError Unit)
  | failed (e : CacheError)
  | invalidated (result : Except CacheError UInt64)
  deriving DecidableEq

section
variable {P T : Type} (X : Externals P) (policy : CachePolicy)

def Task.program : Task → Prog Op (Op.Res P) (Reply P)
  | .query input ttl => do
    match ← lookup X input with
    | .error e => return .failed e
    | .ok (some payload) => return .found payload
    | .ok none =>
      match ← perform Op.databaseRead with
      | .error e => return .failed e
      | .ok payload => return .stored payload (← store X policy input payload ttl)
  | .write nameSpace => do
    perform Op.databaseWrite
    return .invalidated (← invalidateAfterCommit nameSpace)

/-- Any number of clients and writers that share one interceptor. -/
def initial {B : CacheBackend} (tasks : T → Task) (backend : B.State) :
    Config T Op (Op.Res P) (World B T) (Reply P) :=
  ⟨.new backend, [], fun t => (tasks t).program X policy⟩

/-! ### The order of reads and writes -/

def isRead [DecidableEq T] (t : T) (e : Event T Op (Op.Res P)) : Bool :=
  match e.op with
  | .databaseRead => e.task == t
  | _ => false

def isWrite [DecidableEq T] (t : T) (e : Event T Op (Op.Res P)) : Bool :=
  match e.op with
  | .databaseWrite => e.task == t
  | _ => false

/-- All who have bumped the namespace so far wrote to the database before the task read from it. -/
def ReadsFollowWrites [DecidableEq T] (t : T) (nameSpace : String) (h : History P T) : Prop :=
  History.Always (fun e s => isRead t e = true →
    ∀ b ∈ h, isBump nameSpace b = true → ∃ x ∈ s, isWrite b.task x = true) h

instance [DecidableEq T] (t : T) (n : String) (h : History P T) : Decidable (ReadsFollowWrites t n h) :=
  inferInstanceAs (Decidable (History.Always (fun e s => isRead t e = true →
    ∀ b ∈ h, isBump n b = true → ∃ x ∈ s, isWrite b.task x = true) h))

/-- Few bumps, and whenever `store` reads the generation, the payload is no older than the writes that
led to it. -/
def Ordered [DecidableEq T] {B : CacheBackend} : Restriction T Op (Op.Res P) (Choice B P) (World B T) :=
  fun t op ch w h => FewBumps t op ch w h ∧ match op with
    | .backend (.generation n) => ReadsFollowWrites t n h
    | _ => True

instance [DecidableEq T] {B : CacheBackend} (t : T) (op : Op) (ch : Choice B P) (w : World B T)
    (h : History P T) : Decidable (Ordered t op ch w h) :=
  match op with
  | .backend (.generation n) =>
    inferInstanceAs (Decidable (FewBumps t (.backend (.generation n)) ch w h ∧ ReadsFollowWrites t n h))
  | .backend (.get k) => inferInstanceAs (Decidable (FewBumps t (.backend (.get k)) ch w h ∧ True))
  | .backend (.put k v ttl) =>
    inferInstanceAs (Decidable (FewBumps t (.backend (.put k v ttl)) ch w h ∧ True))
  | .backend (.bumpGeneration n) =>
    inferInstanceAs (Decidable (FewBumps t (.backend (.bumpGeneration n)) ch w h ∧ True))
  | .nowMs | .record _ | .flightsEntry _ | .lock _ | .unlock _ | .releaseFlight _ _ | .dropFlight _
  | .loaderStart | .loaderFinish | .databaseRead | .databaseWrite => .isTrue ⟨trivial, trivial⟩

end

/-! ### What a client does -/

section
variable {P : Type} {X : Externals P} {policy : CachePolicy} {input : CacheKeyInput} {ttl : Duration}
variable {done : Done P} {key : CacheKey}

/-- The client has read a payload, then the generation, and made an envelope of the two. -/
def Filed (X : Externals P) (input : CacheKeyInput) (k : String) (v : Bytes) (done : Done P) : Prop :=
  ∃ g key p ttl now before, ⟨.backend (.generation input.nameSpace), .ok g⟩ :: before <:+ done ∧
    ⟨.databaseRead, .ok p⟩ ∈ before ∧ CacheKey.build X input g = .ok key ∧ key.digest = k ∧
    (CacheEnvelope.new key p ttl now).encode X = .ok v

/-- What a client has made sure of before each operation. -/
def queryRule (X : Externals P) (input : CacheKeyInput) (done : Done P) : Op → Prop
  | .backend (.generation n) =>
    n = input.nameSpace ∧ (done = [] ∨ ∃ p, ⟨.databaseRead, .ok p⟩ ∈ done)
  | .backend (.put k v _) => Filed X input k v done
  | .backend (.bumpGeneration _) | .databaseWrite => False
  | _ => True

def Task.rule (X : Externals P) : Task → Done P → Op → Prop
  | .query input _ => queryRule X input
  | .write nameSpace => writerRule nameSpace

/-- Without a database read, a payload comes from the backend. -/
structure Hit (X : Externals P) (input : CacheKeyInput) (p : P) (done : Done P) : Prop where
  found : ∃ g key, Keyed X input g key done ∧ Found X key p done
  unread : ∀ r, ⟨.databaseRead, r⟩ ∉ done

def Task.End (X : Externals P) : Task → Reply P → Done P → Prop
  | .query input _, .found p, done => Hit X input p done
  | _, _, _ => True

/-- The operations of a lookup after it has read the generation. -/
def Looking : Op → Prop
  | .backend (.get _) | .nowMs | .record _ => True
  | _ => False

private theorem only_cached : (cached X key).Only Looking := by
  simp only [cached, bind_eq, perform_bind, pure_eq, only_call]
  refine ⟨trivial, fun result => ?_⟩
  cases result with
  | error e => exact ⟨trivial, fun _ => trivial⟩
  | ok stored =>
    cases stored with
    | none => trivial
    | some bytes =>
      dsimp only
      split
      · trivial
      · exact ⟨trivial, fun _ => trivial⟩

private theorem ensures_cached {g : UInt64} (hk : Keyed X input g key done)
    (unread : ∀ r, ⟨.databaseRead, r⟩ ∉ done) :
    (cached X key).Ensures (fun a after => ∀ p, a = some p → Hit X input p after) done := by
  refine ensures_check.mono ?_
  rintro a _ ⟨checked, rfl, check⟩ p rfl
  cases check with
  | @found bytes envelope now decoded fresh =>
    refine ⟨⟨g, key, hk.grow (List.suffix_append _ _), bytes, envelope, by simp, decoded, rfl⟩,
      fun r => ?_⟩
    simpa using unread r

private theorem obeys_lookup : (lookup X input).Obeys (queryRule X input)
    (fun a after => ∀ p, a = .ok (some p) → Hit X input p after) [] := by
  simp only [lookup, bind_eq, perform_bind, pure_eq]
  refine ⟨⟨rfl, .inl rfl⟩, fun result => ?_⟩
  match result with
  | .error e => exact ⟨trivial, fun _ => nofun⟩
  | .ok g =>
    dsimp only
    split
    · exact nofun
    · next key built =>
      have keyed : Keyed X input g key [⟨.backend (.generation input.nameSpace), .ok g⟩] :=
        ⟨List.suffix_refl _, built⟩
      have looked : (cached X key).Obeys (queryRule X input) _ _ :=
        (ensures_cached keyed (by simp)).obeys only_cached fun done op looking => by
          match op with
          | .backend (.get _) | .nowMs | .record _ => trivial
      refine looked.andThen fun a after hits _ p hp => ?_
      cases hp
      exact hits p rfl

private theorem obeys_store {p : P} (read : ⟨.databaseRead, .ok p⟩ ∈ done) :
    (store X policy input p ttl).Obeys (queryRule X input) (fun _ _ => True) done := by
  unfold store
  split
  · trivial
  · simp only [bind_eq, perform_bind, pure_eq]
    refine ⟨⟨rfl, .inr ⟨p, read⟩⟩, fun result => ?_⟩
    match result with
    | .error e => exact ⟨trivial, fun _ => trivial⟩
    | .ok g =>
      dsimp only
      split
      · trivial
      · next key built =>
        refine ⟨trivial, fun now => ?_⟩
        dsimp only
        cases encoded : (CacheEnvelope.new key p ttl now).encode X with
        | error e => trivial
        | ok envelope =>
          refine ⟨⟨g, key, p, ttl, now, done, List.suffix_cons _ _, read, built, rfl, encoded⟩,
            fun result => ?_⟩
          match result with
          | .error _ => exact ⟨trivial, fun _ => trivial⟩
          | .ok _ => trivial

private theorem obeys_program (task : Task) :
    (task.program X policy).Obeys (task.rule X) (task.End X) [] := by
  cases task with
  | query input ttl =>
    refine obeys_lookup.andThen fun a after hits _ => ?_
    cases a with
    | error e => trivial
    | ok found =>
      cases found with
      | some p => exact hits p rfl
      | none =>
        refine ⟨trivial, fun result => ?_⟩
        cases result with
        | error e => trivial
        | ok p => exact (obeys_store List.mem_cons_self).andThen fun _ _ _ _ => trivial
  | write n =>
    simp only [Task.program, invalidateAfterCommit, bind_eq, perform_bind, call_bind, pure_eq]
    refine ⟨trivial, fun _ => ⟨⟨rfl, by simp⟩, fun result => ?_⟩⟩
    cases result with
    | error => trivial
    | ok => exact ⟨trivial, fun _ => trivial⟩

private theorem obeys_initial {B : CacheBackend} {T : Type} [DecidableEq T] (tasks : T → Task)
    (backend : B.State) : (initial X policy tasks backend).Obeys (fun t => (tasks t).rule X)
      fun t => (tasks t).End X :=
  fun t => obeys_program (tasks t)

end

/-! ### What the backend holds -/

section
variable {P T : Type} [DecidableEq T]

/-- At a moment with this or a later generation, all who had bumped had written before some task read
the payload. -/
def Follows (h : History P T) (n : String) (g : UInt64) (p : P) : Prop :=
  ∃ q, q <:+ h ∧ g.toNat ≤ bumps n q ∧ ∃ reader s, ⟨reader, .databaseRead, .ok p⟩ :: s <:+ q ∧
    ∀ b ∈ q, isBump n b = true → ∃ x ∈ s, isWrite b.task x = true

/-- The bytes are an envelope whose payload follows the writes that led to its generation. -/
def Stored (X : Externals P) (k : String) (bytes : Bytes) (h : History P T) : Prop :=
  ∃ input key envelope, input.Fits X.parser ∧ CacheKey.build X input key.generation = .ok key ∧
    key.digest = k ∧ CacheEnvelope.decode X bytes = .ok envelope ∧
    Follows h input.nameSpace key.generation envelope.payload

theorem Stored.cons {X : Externals P} {h : History P T} {e : Event T Op (Op.Res P)} {k : String}
    {b : Bytes} (stored : Stored X k b h) : Stored X k b (e :: h) := by
  obtain ⟨input, key, envelope, fits, built, digest, decoded, q, hq, follows⟩ := stored
  exact ⟨input, key, envelope, fits, built, digest, decoded, q, hq.trans (List.suffix_cons _ _),
    follows⟩

/-- What the backend and the history have to do with each other. -/
structure Kept {B : CacheBackend} (X : Externals P) (H : B.Healthy) (w : World B T)
    (h : History P T) : Prop extends Backed (Stored X) H w h where
  answered : h.Always fun e s => ∀ t n g, e = ⟨t, .backend (.generation n), .ok g⟩ →
    g.toNat = bumps n s ∧ ReadsFollowWrites t n s ∧
      (s.own t = [] ∨ ∃ p, ⟨.databaseRead, .ok p⟩ ∈ s.own t)

variable {B : CacheBackend} {X : Externals P} {H : B.Healthy} {w u : World B T} {h : History P T}
variable {policy : CachePolicy} {tasks : T → Task} {t : T}

/-- What a client files follows the writes, since it has re-read the generation in order. -/
theorem Kept.filed (codec : X.RoundTrips) (hi : Kept X H w h) {input : CacheKeyInput}
    (fits : input.Fits X.parser) {k : String} {v : Bytes} (filed : Filed X input k v (h.own t)) :
    Stored X k v h := by
  obtain ⟨g, key, p, ttl, now, before, ⟨l, hl⟩, read, built, digest, encoded⟩ := filed
  obtain ⟨q, hq, own⟩ := History.exists_suffix_of_own hl.symm
  obtain ⟨count, follow, -⟩ := hi.answered _ _ hq t _ g rfl
  obtain ⟨s, hs⟩ := History.exists_suffix_of_mem_own (own ▸ read)
  obtain rfl := CacheKey.build_generation built
  refine ⟨input, key, _, fits, built, digest, CacheEnvelope.decode_encode codec encoded, q,
    (List.suffix_cons _ _).trans hq, count.le, t, s, hs, ?_⟩
  exact follow _ _ hs (by simp [isRead])

/-- Operations on anything but the backend. -/
theorem Kept.quiet (hi : Kept X H w h) (hb : u.backend = w.backend) {op : Op} {r : op.Res P}
    (hop : ∀ o, op ≠ .backend o) : Kept X H u (⟨t, op, r⟩ :: h) where
  toBacked := hi.toBacked.quiet Stored.cons hb hop
  answered := hi.answered.cons fun s n g he => by
    cases he
    exact absurd rfl (hop _)

theorem Kept.serves (codec : X.RoundTrips)
    (fits : ∀ t input ttl, tasks t = .query input ttl → input.Fits X.parser) (hi : Kept X H w h)
    {op : BackendOp} {r : op.Res} (hs : Store.Serves op r (H.abs w.backend) (H.abs u.backend))
    (hr : (tasks t).rule X (h.own t) (.backend op)) {ch : Choice B P}
    (ha : Ordered t (.backend op) ch w h) : Kept X H u (⟨t, .backend op, r⟩ :: h) := by
  constructor
  case toBacked =>
    refine hi.toBacked.serves Stored.cons hs ha.1 fun k v ttl put => ?_
    subst put
    cases task : tasks t with
    | write n =>
      rw [task] at hr
      exact hr.elim
    | query input life =>
      rw [task] at hr
      exact hi.filed codec (fits t input life task) hr
  case answered =>
    refine hi.answered.cons fun s n g he => ?_
    cases he
    obtain rfl := Except.ok.inj hs.1
    refine ⟨hi.counter n, ha.2, ?_⟩
    cases task : tasks t with
    | write m =>
      rw [task] at hr
      exact hr.elim
    | query input life =>
      rw [task] at hr
      exact hr.2

private theorem kept_preserved (codec : X.RoundTrips)
    (fits : ∀ t input ttl, tasks t = .query input ttl → input.Fits X.parser) :
    Preserves (machine B P T) Ordered (fun t => (tasks t).rule X) (Kept X H) := by
  intro t op ch w h r u hi hr ha hm
  by_cases hop : ∀ o, op ≠ .backend o
  · exact hi.quiet (backend_of_perform hop hm) hop
  · push Not at hop
    obtain ⟨op, rfl⟩ := hop
    cases hm
    exact hi.serves codec fits (H.serves op ch.backend w.backend) hr ha

private theorem kept_initial {state : B.State} (cold : H.abs state = .empty) :
    Kept X H (initial X policy tasks state).world (initial X policy tasks state).history where
  counter n := by simp [initial, World.new, cold, Store.empty, bumps]
  stored k b hk := by simp [initial, World.new, cold, Store.empty] at hk
  served t k b hm := by simp [initial] at hm
  answered := History.always_nil

/-- A payload that follows the writes of a generation follows those whose bump the generation counts. -/
theorem Kept.write_precedes (hi : Kept X H w h) {call writer : T} {n : String} {g m : UInt64} {p : P}
    (follows : Follows h n g p)
    (after : h.Precedes ⟨writer, .backend (.bumpGeneration n), .ok m⟩
      ⟨call, .backend (.generation n), .ok g⟩) :
    ∃ reader, h.Precedes ⟨writer, .databaseWrite, ()⟩ ⟨reader, .databaseRead, .ok p⟩ := by
  obtain ⟨r, hr, bumped⟩ := after
  obtain ⟨q, hq, count, reader, s, hs, written⟩ := follows
  have seen := (hi.answered _ _ hr call n g rfl).1
  have inside := History.mem_of_countP_le ((List.suffix_cons _ _).trans hr) hq
    (seen.symm.le.trans count) bumped (by simp [isBump])
  obtain ⟨⟨t, op, x⟩, hx, wrote⟩ := written _ inside (by simp [isBump])
  cases op with
  | databaseWrite =>
    obtain rfl : t = writer := by simpa [isWrite] using wrote
    exact ⟨reader, s, hs.trans hq, hx⟩
  | _ => cases wrote

/-- A client that has not read the database has read the generation once. -/
theorem Kept.generation_read_once (hi : Kept X H w h) {call : T} {n : String} {g : UInt64}
    {q : History P T} (hq : ⟨call, .backend (.generation n), .ok g⟩ :: q <:+ h)
    (unread : ∀ r, ⟨.databaseRead, r⟩ ∉ h.own call) :
    [⟨.backend (.generation n), .ok g⟩] <:+ h.own call := by
  have own : History.own q call = [] := by
    rcases (hi.answered _ _ hq call n g rfl).2.2 with own | ⟨p, read⟩
    · exact own
    · have older := History.own_suffix (t := call) ((List.suffix_cons _ _).trans hq)
      exact absurd (older.subset read) (unread _)
  have older := History.own_suffix (t := call) hq
  rwa [History.own_cons_self, own] at older

end

/-- The two-phase API is coherent as long as whenever `store` reads the generation, all who have bumped
it wrote before the payload was read: a lookup whose generation read follows a writer's bump returns a
payload that was read from the database after that writer's write. -/
theorem lookup_never_stale {P T : Type} [DecidableEq T] {B : CacheBackend} {H : B.Healthy}
    {X : Externals P} {policy : CachePolicy} {tasks : T → Task} {state : B.State}
    (cold : H.abs state = .empty) (hash : Function.Injective X.blake3) (codec : X.RoundTrips)
    (fits : ∀ t input ttl, tasks t = .query input ttl → input.Fits X.parser)
    {d : Config T Op (Op.Res P) (World B T) (Reply P)}
    (run : Reaches (machine B P T) Ordered (initial X policy tasks state) d)
    {call writer : T} {input : CacheKeyInput} {ttl : Duration} (called : tasks call = .query input ttl)
    {g m : UInt64}
    (after : d.history.Precedes ⟨writer, .backend (.bumpGeneration input.nameSpace), .ok m⟩
      ⟨call, .backend (.generation input.nameSpace), .ok g⟩)
    {p : P} (returned : d.tasks call = .ret (.found p)) :
    ∃ reader, d.history.Precedes ⟨writer, .databaseWrite, ()⟩ ⟨reader, .databaseRead, .ok p⟩ := by
  obtain ⟨hi, hd⟩ := run.preserves (kept_preserved (H := H) codec fits) (obeys_initial tasks _)
    (kept_initial cold)
  have hit := hd.returned returned
  simp only [called, Task.End] at hit
  obtain ⟨⟨g', key, keyed, bytes, envelope, got, decoded, rfl⟩, unread⟩ := hit
  obtain ⟨q, hq, bumped⟩ := id after
  obtain rfl : g' = g := by
    cases suffix_singleton_inj keyed.read (hi.generation_read_once hq unread)
    rfl
  obtain ⟨input', key', envelope', fits', built', digest, decoded', follows⟩ :=
    hi.served call _ _ (History.mem_own.mp got)
  obtain ⟨hn, hg⟩ := CacheKey.origin_of_digest hash built' keyed.built fits' (fits call _ _ called) digest
  rw [decoded'] at decoded
  cases decoded
  rw [hn, hg] at follows
  exact hi.write_precedes follows after

/-- Two clients of one query, and a writer of its namespace. -/
def sampleTasks : Fin 3 → Task
  | 1 => .write "ns"
  | _ => .query Sample.keyInput (.fromMins 5)

def reading (payload : Bytes) : Choice (LocalBackend.backend Sample.hash) Bytes :=
  ⟨⟨[], 5⟩, 5, .ok payload⟩

private theorem sampleTasks_fit (t : Fin 3) (input : CacheKeyInput) (ttl : Duration)
    (task : sampleTasks t = .query input ttl) : input.Fits Sample.externals.parser := by
  unfold sampleTasks at task
  split at task
  · cases task
  · cases task
    exact Sample.keyInput_fits

/-- A write, then a client that stores what it has read, then another client. -/
theorem stored_payload_found :
    ∃ d : Config (Fin 3) Op (Op.Res Bytes) (World (LocalBackend.backend Sample.hash) (Fin 3))
        (Reply Bytes),
      d.returned 2 = some (.found [7]) ∧ ∃ reader,
        d.history.Precedes ⟨1, .databaseWrite, ()⟩ ⟨reader, .databaseRead, .ok [7]⟩ := by
  obtain ⟨d, run, seen⟩ := play_observed (M := machine _ Bytes (Fin 3)) (A := Ordered)
    (c := initial Sample.externals {} sampleTasks (LocalBackend.withConfig {}))
    (List.replicate 3 (1, reading [7]) ++ List.replicate 6 (0, reading [7]) ++
      List.replicate 3 (2, reading [7]))
    (fun d => decide (d.returned 2 = some (.found [7]) ∧ d.history.Precedes
      ⟨1, .backend (.bumpGeneration "ns"), .ok 1⟩ ⟨2, .backend (.generation "ns"), .ok 1⟩))
    (by decide +kernel)
  obtain ⟨returned, after⟩ := of_decide_eq_true seen
  exact ⟨d, returned, lookup_never_stale (H := LocalBackend.healthy _) rfl Sample.hash_injective
    Sample.externals_roundTrips sampleTasks_fit run (show sampleTasks 2 = _ from rfl) after
    (Config.returned_eq_some.mp returned)⟩

/-- A bump between the database read and the `store` of a client: another client, which reads the
generation after the bump, gets the payload from before the write. -/
theorem stale_payload_found :
    ∃ d : Config (Fin 3) Op (Op.Res Bytes) (World (LocalBackend.backend Sample.hash) (Fin 3))
        (Reply Bytes),
      Reaches (machine _ Bytes (Fin 3)) FewBumps
        (initial Sample.externals {} sampleTasks (LocalBackend.withConfig {})) d ∧
      d.history.Precedes ⟨1, .backend (.bumpGeneration "ns"), .ok 1⟩
        ⟨2, .backend (.generation "ns"), .ok 1⟩ ∧
      d.returned 2 = some (.found [7]) ∧
      ¬ ∃ reader, d.history.Precedes ⟨1, .databaseWrite, ()⟩ ⟨reader, .databaseRead, .ok [7]⟩ := by
  obtain ⟨d, run, seen⟩ := play_observed (M := machine _ Bytes (Fin 3)) (A := FewBumps)
    (c := initial Sample.externals {} sampleTasks (LocalBackend.withConfig {}))
    (List.replicate 3 (0, reading [7]) ++ List.replicate 3 (1, reading [7]) ++
      List.replicate 3 (0, reading [7]) ++ List.replicate 3 (2, reading [7]))
    (fun d => decide (d.history.Precedes ⟨1, .backend (.bumpGeneration "ns"), .ok 1⟩
        ⟨2, .backend (.generation "ns"), .ok 1⟩ ∧ d.returned 2 = some (.found [7]) ∧
      ¬ ∃ reader, d.history.Precedes ⟨1, .databaseWrite, ()⟩ ⟨reader, .databaseRead, .ok [7]⟩))
    (by decide +kernel)
  exact ⟨d, run, of_decide_eq_true seen⟩

end TwoPhase
end RbatisCache.CacheInterceptor
