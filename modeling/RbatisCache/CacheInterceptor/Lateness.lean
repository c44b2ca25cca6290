import RbatisCache.CacheInterceptor.Freshness
import RbatisCache.CacheInterceptor.Provenance
import RbatisCache.Spi.Boundaries
import RbatisCache.Spi.Lagging

/-! Several processes, each with an interceptor of its own, over one backend whose calls may be late.
A counter may be ahead of what its callers know, but never behind. -/
namespace RbatisCache.CacheInterceptor
open Interleaving Interleaving.Prog

/-- The interceptors of some processes, and the backend they share. -/
structure Cluster (B : CacheBackend) (N T : Type) where
  backend : B.State
  interceptors : N → World B T

namespace Cluster
variable {B : CacheBackend} {N T : Type} [DecidableEq N]

def new (backend : B.State) : Cluster B N T := ⟨backend, fun _ => .new backend⟩

/-- What the tasks of a process see. -/
def view (c : Cluster B N T) (node : N) : World B T :=
  { c.interceptors node with backend := c.backend }

def update (c : Cluster B N T) (node : N) (w : World B T) : Cluster B N T :=
  ⟨w.backend, Function.update c.interceptors node w⟩

end Cluster

/-- Every task runs in the process that `node` says. -/
def cluster (B : CacheBackend) (P : Type) {N T : Type} [DecidableEq N] (node : T → N) :
    Machine T Op (Op.Res P) (Choice B P) (Cluster B N T) where
  perform t op ch c := ((machine B P T).perform t op ch (c.view (node t))).map fun out =>
    (out.1, c.update (node t) out.2)

/-- Any number of tasks in any number of processes. -/
def clusterInitial {B : CacheBackend} {P N T : Type} [DecidableEq N] (X : Externals P)
    (policy : CachePolicy) (tasks : T → Task) (backend : B.State) :
    Config T Op (Op.Res P) (Cluster B N T) (Reply P) :=
  ⟨.new backend, [], fun t => (tasks t).program X policy⟩

/-- Fewer than 2^64 bumps of one namespace are asked for. -/
def FewAsked {C W P T : Type} : Restriction T Op (Op.Res P) C W :=
  fun _ op _ _ h => match op with
    | .backend (.bumpGeneration n) => bumps n h + 1 < 2 ^ 64
    | _ => True

instance {C W P T : Type} (t : T) (op : Op) (ch : C) (w : W) (h : History P T) :
    Decidable (FewAsked t op ch w h) :=
  match op with
  | .backend (.bumpGeneration n) => inferInstanceAs (Decidable (bumps n h + 1 < 2 ^ 64))
  | .backend (.get _) | .backend (.put _ _ _) | .backend (.generation _) | .nowMs | .record _
  | .flightsEntry _ | .lock _ | .unlock _ | .releaseFlight _ _ | .dropFlight _ | .loaderStart
  | .loaderFinish | .databaseRead | .databaseWrite => .isTrue trivial

section
variable {P T : Type}

/-- A call that had read the generation read the payload from the database. -/
def LoadedBy (h : History P T) (t : T) (nameSpace : String) (generation : UInt64) (payload : P) : Prop :=
  h.Precedes ⟨t, .backend (.generation nameSpace), .ok generation⟩ ⟨t, .databaseRead, .ok payload⟩

/-- The bytes are the envelope of what a call has loaded under the key of its request, stored at some
time. -/
structure FilledBy (X : Externals P) (policy : CachePolicy) (tasks : T → Task) (digest : String)
    (bytes : Bytes) (h : History P T) (t : T) (request : CacheRequest) (key : CacheKey)
    (envelope : CacheEnvelope P) (now : UInt64) : Prop where
  task : tasks t = .getOrLoad request
  cacheable : request.Cacheable X
  built : CacheKey.build X request.key key.generation = .ok key
  digest : key.digest = digest
  decoded : CacheEnvelope.decode X bytes = .ok envelope
  size : X.len envelope.payload ≤ policy.maxValueSize
  clock : ⟨t, .nowMs, now⟩ ∈ h
  expires : envelope.expiresAtMs = saturatingAdd now (CacheEnvelope.durationMs policy.ttl)
  loaded : LoadedBy h t request.key.nameSpace key.generation envelope.payload

def Filled (X : Externals P) (policy : CachePolicy) (tasks : T → Task) (digest : String)
    (bytes : Bytes) (h : History P T) : Prop :=
  ∃ t request key envelope now, FilledBy X policy tasks digest bytes h t request key envelope now

/-- The event tells its task a generation, which is that of an invalidation or not. -/
def Tells (nameSpace : String) (generation : UInt64) (e : Event T Op (Op.Res P)) : Prop :=
  (⟨e.op, e.result⟩ : Sigma (Op.Res P)) = ⟨.backend (.generation nameSpace), .ok generation⟩ ∨
  (⟨e.op, e.result⟩ : Sigma (Op.Res P)) = ⟨.backend (.bumpGeneration nameSpace), .ok generation⟩

/-- Some task has been told the generation. -/
def Told (nameSpace : String) (generation : UInt64) (h : History P T) : Prop :=
  ∃ e ∈ h, Tells nameSpace generation e

/-- What is owed by a task before an operation. -/
def Pledged [DecidableEq T] (X : Externals P) (policy : CachePolicy) (tasks : T → Task) (t : T) (op : Op)
    (h : History P T) : Prop :=
  match op with
  | .backend (.put k v _) => Filled X policy tasks k v h
  | .backend (.bumpGeneration _) => ⟨t, .databaseWrite, ()⟩ ∈ h
  | .backend (.generation _) => h.own t = []
  | _ => True

variable {h s : History P T} {e : Event T Op (Op.Res P)} {n k : String} {g : UInt64} {p : P} {b : Bytes}
variable {X : Externals P} {policy : CachePolicy} {tasks : T → Task} {t : T}

theorem Filled.suffix (filled : Filled X policy tasks k b s) (hs : s <:+ h) :
    Filled X policy tasks k b h := by
  obtain ⟨t, request, key, envelope, now, filling⟩ := filled
  exact ⟨t, request, key, envelope, now, filling.task, filling.cacheable, filling.built,
    filling.digest, filling.decoded,
    filling.size, hs.subset filling.clock, filling.expires, filling.loaded.suffix hs⟩

theorem Filled.cons (filled : Filled X policy tasks k b h) : Filled X policy tasks k b (e :: h) :=
  filled.suffix (List.suffix_cons _ _)

private theorem told_cons : Told n g (e :: h) ↔ Tells n g e ∨ Told n g h := by
  simp [Told]

/-- What the backend and the history have to do with each other: no counter is behind a generation
that a task has been told. -/
structure Late [DecidableEq T] {B : CacheBackend} (X : Externals P) (policy : CachePolicy)
    (tasks : T → Task) (L : B.Lagging) (state : B.State) (h : History P T) : Prop where
  few : ∀ n, bumps n h < 2 ^ 64
  within : (L.abs state).Within (fun k b => Filled X policy tasks k b h) fun n => bumps n h
  told : ∀ n g, Told n g h → g.toNat ≤ ((L.abs state).store.counter n).toNat
  served : h.Always fun e s => ∀ t k b, e = ⟨t, .backend (.get k), .ok (some b)⟩ →
    Filled X policy tasks k b s
  below : h.Always fun e s => ∀ t n g, e = ⟨t, .backend (.generation n), .ok g⟩ →
    s.own t = [] ∧ ∀ m, Told n m s → m ≤ g
  above : h.Always fun e s => ∀ t n m, e = ⟨t, .backend (.bumpGeneration n), .ok m⟩ →
    ∀ g, Told n g s → g < m
  written : h.Always fun e s => ∀ t n r, e = ⟨t, .backend (.bumpGeneration n), r⟩ →
    ⟨t, .databaseWrite, ()⟩ ∈ s

variable [DecidableEq T] {B : CacheBackend} {L : B.Lagging} {state : B.State}

/-- Operations on anything but the backend. -/
theorem Late.quiet (late : Late X policy tasks L state h) {op : Op} {r : op.Res P}
    (quiet : ∀ o, op ≠ .backend o) : Late X policy tasks L state (⟨t, op, r⟩ :: h) := by
  have silent (n : String) (g : UInt64) : ¬ Tells n g (⟨t, op, r⟩ : Event T Op (Op.Res P)) := by
    rintro (same | same)
    all_goals exact quiet _ (congrArg Sigma.fst same)
  have within := late.within
  refine ⟨fun n => (bumps_cons_quiet quiet n).trans_lt (late.few n),
    ⟨fun k b stored => (within.stored k b stored).cons,
    fun k b ttl due => (within.due k b ttl due).cons, fun n => ?_⟩, fun n g told => ?_,
    late.served.cons ?_, late.below.cons ?_, late.above.cons ?_, late.written.cons ?_⟩
  · rw [bumps_cons_quiet quiet]
    exact within.counter n
  · exact late.told n g ((told_cons.mp told).resolve_left (silent n g))
  · intro s k b now
    cases now
    exact absurd rfl (quiet _)
  · intro s n g now
    cases now
    exact absurd rfl (quiet _)
  · intro s n m now
    cases now
    exact absurd rfl (quiet _)
  · intro s n r now
    cases now
    exact absurd rfl (quiet _)

/-- A call to the backend by a task that pays what it owes. -/
theorem Late.calls (late : Late X policy tasks L state h) {op : BackendOp}
    (pledged : Pledged X policy tasks t (.backend op) h)
    (few : ∀ n, bumps n h + Store.bumpCount n op < 2 ^ 64) (ch : B.Choice) :
    Late X policy tasks L (B.perform op ch state).2
      (⟨t, .backend op, (B.perform op ch state).1⟩ :: h) := by
  have puts (k : String) (b : Bytes) (ttl : Duration) (put : op = .put k b ttl) :
      Filled X policy tasks k b h := by
    subst put
    exact pledged
  have called := L.called late.within puts few ch
  generalize B.perform op ch state = out at called
  obtain ⟨r, state'⟩ := out
  have within := called.within
  have current (n : String) (g : UInt64) (told : Told n g h) :
      g.toNat ≤ ((L.abs state).store.counter n).toNat := late.told n g told
  refine ⟨fun n => bumps_cons_backend.trans_lt (few n),
    ⟨fun k b stored => (within.stored k b stored).cons,
    fun k b ttl due => (within.due k b ttl due).cons, fun n => ?_⟩, fun n g told => ?_,
    late.served.cons ?_, late.below.cons ?_, late.above.cons ?_, late.written.cons ?_⟩
  · dsimp only
    rw [bumps_cons_backend]
    exact within.counter n
  · rcases told_cons.mp told with now | before
    · rcases now with now | now
      · cases now
        exact (called.read n g rfl).2
      · cases now
        exact (called.raised n g rfl).2
    · exact (current n g before).trans (called.grown n)
  · intro s k b now
    cases now
    exact called.got k b rfl
  · intro s n g now
    cases now
    refine ⟨pledged, fun m told => ?_⟩
    exact UInt64.le_iff_toNat_le.mpr ((current n m told).trans (called.read n g rfl).1)
  · intro s n m now g told
    cases now
    exact UInt64.lt_iff_toNat_lt.mpr ((current n g told).trans_lt (called.raised n m rfl).1)
  · intro s n r now
    cases now
    exact pledged

/-! ### What the calls and the writers make sure of -/

/-- What a call reads from the database it reads after its generation. -/
theorem LoadedBy.of_own (asked : [⟨.backend (.generation n), .ok g⟩] <:+ h.own t)
    (read : ⟨.databaseRead, .ok p⟩ ∈ h.own t) : LoadedBy h t n g p := by
  obtain ⟨newer, older, split⟩ := List.append_of_mem read
  obtain ⟨s, hs, own⟩ := History.exists_suffix_of_own split
  refine ⟨s, hs, History.mem_own.mp ?_⟩
  rw [own]
  rw [split] at asked
  rcases List.suffix_or_suffix_of_suffix asked (List.suffix_append newer _) with first | early
  · rcases List.suffix_cons_iff.mp first with same | first
    · cases (List.cons.inj same).1
    · exact first.subset List.mem_cons_self
  · have same := early.subset List.mem_cons_self
    cases List.mem_singleton.mp same

/-- The protocols of a task. -/
def Task.fullRule (X : Externals P) (policy : CachePolicy) (task : Task) (done : Done P) (op : Op) :
    Prop :=
  task.rule X policy done op ∧ task.backendRule X policy done op

def Task.FullEnd (X : Externals P) (policy : CachePolicy) (task : Task) (reply : Reply P)
    (done : Done P) : Prop :=
  task.End X policy reply done ∧ task.Sourced X reply done

theorem pledged_of_rule (codec : X.RoundTrips) {op : Op}
    (allowed : (tasks t).fullRule X policy (h.own t) op) : Pledged X policy tasks t op h := by
  obtain ⟨allowed, careful⟩ := allowed
  cases task : tasks t with
  | getOrLoad request =>
    rw [task] at allowed careful
    match op with
    | .backend (.generation n) => exact allowed.1
    | .backend (.get k) => trivial
    | .backend (.put k v ttl) =>
      obtain ⟨g, key, p, now, keyed, digest, read, encoded, -⟩ := allowed
      obtain ⟨cacheable, -, key', p', now', clock, size, encoded'⟩ := careful
      obtain rfl := CacheKey.build_generation keyed.built
      have decoded := CacheEnvelope.decode_encode codec encoded
      have decoded' := CacheEnvelope.decode_encode codec encoded'
      have same := Except.ok.inj (decoded.symm.trans decoded')
      refine ⟨t, request, key, _, now', task, cacheable, keyed.built, digest, decoded, ?_,
        History.mem_own.mp clock, ?_, .of_own keyed.read read⟩
      · rw [same]
        exact size
      · rw [same]
        rfl
    | .backend (.bumpGeneration n) => exact allowed.elim
    | .nowMs | .record _ | .flightsEntry _ | .lock _ | .unlock _ | .releaseFlight _ _
    | .dropFlight _ | .loaderStart | .loaderFinish | .databaseRead | .databaseWrite => trivial
  | write n =>
    rw [task] at allowed
    match op with
    | .backend (.bumpGeneration m) => exact History.mem_own.mp allowed.2
    | .backend (.generation m) | .backend (.put k v ttl) => exact allowed.elim
    | .backend (.get _) | .nowMs | .record _ | .flightsEntry _ | .lock _ | .unlock _
    | .releaseFlight _ _ | .dropFlight _ | .loaderStart | .loaderFinish | .databaseRead
    | .databaseWrite => trivial

omit [DecidableEq T] in
/-- How a call in a process changes the backend. -/
theorem cluster_backend {N : Type} [DecidableEq N] {node : T → N} {op : Op} {ch : Choice B P}
    {c d : Cluster B N T} {r : op.Res P} (done : (cluster B P node).perform t op ch c = some (r, d)) :
    ∃ u, (machine B P T).perform t op ch (c.view (node t)) = some (r, u) ∧ d.backend = u.backend := by
  obtain ⟨⟨r', u⟩, performed, same⟩ := Option.map_eq_some_iff.mp done
  cases same
  exact ⟨u, performed, rfl⟩

variable {N : Type} [DecidableEq N] {node : T → N}

/-- Every step of every task that pays what it owes, in whichever process. -/
theorem late_preserved {rule : T → Done P → Op → Prop}
    (pays : ∀ t op h, rule t (h.own t) op → Pledged X policy tasks t op h) :
    Preserves (cluster B P node) FewAsked rule fun c h => Late X policy tasks L c.backend h := by
  intro t op ch c h r d late allowed few done
  obtain ⟨u, performed, backend⟩ := cluster_backend done
  have pledged := pays t op h allowed
  by_cases quiet : ∀ o, op ≠ .backend o
  · rw [backend, backend_of_perform quiet performed]
    exact late.quiet quiet
  · push Not at quiet
    obtain ⟨op, rfl⟩ := quiet
    cases performed
    rw [backend]
    refine late.calls pledged (fun n => ?_) ch.backend
    cases op with
    | get | put | generation => exact late.few n
    | bumpGeneration m =>
      rw [Store.bumpCount]
      split
      · next same =>
        subst same
        exact few
      · exact late.few n

theorem late_initial (empty : L.abs state = ⟨.empty, []⟩) :
    Late X policy tasks L state ([] : History P T) where
  few n := Nat.two_pow_pos 64
  within := by
    rw [empty]
    exact ⟨nofun, nofun, fun n => le_rfl⟩
  told n g told := by
    obtain ⟨e, he, -⟩ := told
    cases he
  served := History.always_nil
  below := History.always_nil
  above := History.always_nil
  written := History.always_nil

/-- What holds whenever some tasks have run over a backend that was empty. -/
theorem late_of_run (codec : X.RoundTrips) (empty : L.abs state = ⟨.empty, []⟩)
    {d : Config T Op (Op.Res P) (Cluster B N T) (Reply P)}
    (run : Reaches (cluster B P node) FewAsked (clusterInitial X policy tasks state) d) :
    Late X policy tasks L d.world.backend d.history ∧
      d.Obeys (fun t => (tasks t).fullRule X policy) fun t => (tasks t).FullEnd X policy :=
  run.preserves (late_preserved fun _ _ _ => pledged_of_rule codec)
    (fun t => (obeys_program (tasks t)).and (obeys_task_sourced (tasks t))) (late_initial empty)

/-! ### What a call returns -/

/-- A payload that one call returns and another one has loaded: for the same canonical SQL and parameters and
the same tenant, where no tenant is the tenant `-`, under the generation that both have read, and stored less
than the policy's TTL before the one looked. -/
structure Shares (X : Externals P) (policy : CachePolicy) (tasks : T → Task) (h : History P T)
    (call : T) (request : CacheRequest) (payload : P) (loader : T) (request' : CacheRequest)
    (generation stored looked : UInt64) : Prop where
  task : tasks loader = .getOrLoad request'
  cacheable : request.Cacheable X ∧ request'.Cacheable X
  boundaries : request'.key.AgreesOnRest X.parser request.key
  tenant : request'.key.tenant.getD "-" = request.key.tenant.getD "-"
  asked : [⟨.backend (.generation request.key.nameSpace), .ok generation⟩] <:+ h.own call
  loaded : LoadedBy h loader request.key.nameSpace generation payload
  size : X.len payload ≤ policy.maxValueSize
  order : h.Precedes ⟨loader, .nowMs, stored⟩ ⟨call, .nowMs, looked⟩
  young : looked < saturatingAdd stored (CacheEnvelope.durationMs policy.ttl)

/-- Where a served payload comes from. -/
theorem Late.shares (late : Late X policy tasks L state h) (hash : Function.Injective X.blake3)
    (fits : ∀ t request, tasks t = .getOrLoad request → request.key.Fits X.parser)
    {request : CacheRequest} (called : tasks t = .getOrLoad request)
    (served : Served X request p (h.own t)) :
    ∃ loader request' generation stored looked,
      Shares X policy tasks h t request p loader request' generation stored looked := by
  obtain ⟨key, bytes, envelope, looked, hit⟩ := served
  obtain ⟨before, after, own⟩ := hit.looked
  obtain ⟨s, hs, earlier⟩ := History.exists_suffix_of_own own.symm
  have got := History.mem_own.mp (earlier ▸ List.mem_cons_self)
  obtain ⟨q, hq⟩ := History.exists_suffix_of_mem got
  have inside := hq.trans ((List.suffix_cons _ _).trans hs)
  obtain ⟨loader, request', key', envelope', stored, fill⟩ := late.served _ q inside t _ _ rfl
  obtain ⟨m, m', parsed, parsed', same⟩ := CacheKey.stream_of_digest hash fill.built hit.keyed.built
    (fits loader request' fill.task) (fits t request called) fill.digest
  obtain ⟨components, generation, parameters⟩ := CacheKeyInput.stream_inj same
  obtain ⟨rest, -⟩ := CacheKeyInput.agrees_of_components parsed parsed' components parameters
  have decoded := Except.ok.inj (fill.decoded.symm.trans hit.decoded)
  subst decoded
  obtain rfl := hit.payload
  refine ⟨loader, request', key.generation, stored, looked, fill.task,
    ⟨hit.cacheable, fill.cacheable⟩, rest, ?_, hit.keyed.read, ?_, fill.size,
    ⟨s, hs, hq.subset (List.mem_cons_of_mem _ fill.clock)⟩, ?_⟩
  · simp only [CacheKeyInput.components, List.cons.injEq] at components
    exact components.2.2.2.1
  · rw [← generation, ← rest.nameSpace]
    exact fill.loaded.suffix ((List.suffix_cons _ _).trans inside)
  · rw [← fill.expires]
    exact (CacheEnvelope.isFresh_iff.mp hit.fresh).2.2

/-- A call returns what it has loaded itself, or shares what another call has loaded. -/
theorem Late.returned (late : Late X policy tasks L state h) (hash : Function.Injective X.blake3)
    (fits : ∀ t request, tasks t = .getOrLoad request → request.key.Fits X.parser)
    {request : CacheRequest} (called : tasks t = .getOrLoad request)
    (ends : (tasks t).FullEnd X policy (.payload (.ok p)) (h.own t)) :
    ⟨t, .databaseRead, .ok p⟩ ∈ h ∨ ∃ loader request' generation stored looked,
      Shares X policy tasks h t request p loader request' generation stored looked := by
  obtain ⟨-, sourced⟩ := ends
  rw [called] at sourced
  rcases sourced _ rfl p rfl with read | served
  · exact .inl (History.mem_own.mp read)
  · exact .inr (late.shares hash fits called served)

/-- What was loaded at a generation that has seen an invalidation was loaded after it. -/
theorem Late.write_precedes (late : Late X policy tasks L state h) {call writer reader : T} {m : UInt64}
    (loaded : LoadedBy h reader n g p)
    (after : h.Precedes ⟨writer, .backend (.bumpGeneration n), .ok m⟩
      ⟨call, .backend (.generation n), .ok g⟩) :
    h.Precedes ⟨writer, .databaseWrite, ()⟩ ⟨reader, .databaseRead, .ok p⟩ := by
  obtain ⟨r, hr, bump⟩ := after
  obtain ⟨s, hs, asked⟩ := loaded
  have order : m ≤ g := (late.below _ r hr call n g rfl).2 m ⟨_, bump, .inr rfl⟩
  obtain ⟨q, hq⟩ := History.exists_suffix_of_mem bump
  have hq := hq.trans ((List.suffix_cons _ _).trans hr)
  have write := late.written _ q hq writer n _ rfl
  rcases List.suffix_or_suffix_of_suffix hq hs with earlier | later
  · rcases List.suffix_cons_iff.mp earlier with same | earlier
    · cases (List.cons.inj same).1
    · exact ⟨s, hs, earlier.subset (List.mem_cons_of_mem _ write)⟩
  · rcases List.suffix_cons_iff.mp later with same | later
    · cases (List.cons.inj same).1
    · have told : Told n g q := ⟨_, later.subset (List.mem_cons_of_mem _ asked), .inl rfl⟩
      exact absurd order (UInt64.not_le.mpr (late.above _ q hq writer n m rfl g told))

/-- What a call returns that asked for its generation after an invalidation. -/
theorem Late.never_stale (late : Late X policy tasks L state h) (hash : Function.Injective X.blake3)
    (fits : ∀ t request, tasks t = .getOrLoad request → request.key.Fits X.parser)
    {writer : T} {request : CacheRequest} (called : tasks t = .getOrLoad request) {m : UInt64}
    (after : h.Precedes ⟨writer, .backend (.bumpGeneration request.key.nameSpace), .ok m⟩
      ⟨t, .backend (.generation request.key.nameSpace), .ok g⟩)
    (ends : (tasks t).FullEnd X policy (.payload (.ok p)) (h.own t)) :
    ∃ loader, h.Precedes ⟨writer, .databaseWrite, ()⟩ ⟨loader, .databaseRead, .ok p⟩ := by
  obtain ⟨r, hr, bump⟩ := id after
  have asked : [⟨.backend (.generation request.key.nameSpace), .ok g⟩] <:+ h.own t := by
    obtain ⟨l, hl⟩ := hr
    refine ⟨History.own l t, ?_⟩
    rw [← hl, History.own_append, History.own_cons_self,
      (late.below _ _ ⟨l, hl⟩ t _ g rfl).1]
  rcases late.returned hash fits called ends with read | ⟨loader, request', generation, stored, looked, shares⟩
  · exact ⟨t, late.write_precedes (.of_own asked (History.mem_own.mpr read)) after⟩
  · cases suffix_singleton_inj shares.asked asked
    exact ⟨loader, late.write_precedes shares.loaded after⟩

/-- A generation that a task is told is at least any that has been told before, and greater if it is that of
an invalidation. -/
theorem Late.rises (late : Late X policy tasks L state h) {a b : Event T Op (Op.Res P)} {m : UInt64}
    (order : h.Precedes a b) (before : Tells n g a) (after : Tells n m b) :
    g ≤ m ∧ (b.op = .backend (.bumpGeneration n) → g < m) := by
  obtain ⟨s, hs, ha⟩ := order
  obtain ⟨t, op, r⟩ := b
  have told : Told n g s := ⟨a, ha, before⟩
  rcases after with now | now
  · cases now
    exact ⟨(late.below _ s hs t n m rfl).2 g told, nofun⟩
  · cases now
    have less := late.above _ s hs t n m rfl g told
    exact ⟨UInt64.le_of_lt less, fun _ => less⟩

/-- In any processes over a backend that is late: a call returns a payload that it has read from the
database itself, or one that another call has read for the same query, as far as keys tell queries apart,
under the same generation and stored less than the policy's TTL before; and only calls that may be cached
share payloads. -/
theorem payloads_are_shared (hash : Function.Injective X.blake3) (codec : X.RoundTrips)
    (fits : ∀ t request, tasks t = .getOrLoad request → request.key.Fits X.parser)
    (empty : L.abs state = ⟨.empty, []⟩) {d : Config T Op (Op.Res P) (Cluster B N T) (Reply P)}
    (run : Reaches (cluster B P node) FewAsked (clusterInitial X policy tasks state) d)
    {call : T} {request : CacheRequest} (called : tasks call = .getOrLoad request)
    (returned : d.tasks call = .ret (.payload (.ok p))) :
    ⟨call, .databaseRead, .ok p⟩ ∈ d.history ∨ ∃ loader request' generation stored looked,
      Shares X policy tasks d.history call request p loader request' generation stored looked := by
  obtain ⟨late, obeys⟩ := late_of_run codec empty run
  exact late.returned hash fits called (obeys.returned returned)

end

/-- A call in one process is served what a call in another one has loaded. -/
theorem payload_shared : ∃ d : Config Bool Op (Op.Res Bytes)
    (Cluster (LocalBackend.backend Sample.hash) Bool Bool) (Reply Bytes),
    ⟨true, .databaseRead, .ok [7]⟩ ∉ d.history ∧ ∃ loader request' generation stored looked,
      Shares Sample.externals {} (fun _ => .getOrLoad ⟨Sample.keyInput, false⟩) d.history true
        ⟨Sample.keyInput, false⟩ [7] loader request' generation stored looked := by
  let tasks : Bool → Task := fun _ => .getOrLoad ⟨Sample.keyInput, false⟩
  let now : Choice (LocalBackend.backend Sample.hash) Bytes := ⟨⟨[], 5⟩, 5, .ok [7]⟩
  let L := (LocalBackend.healthy Sample.hash).honest.lagging
  obtain ⟨d, run, seen⟩ := play_observed (M := cluster _ Bytes id) (A := FewAsked)
    (c := clusterInitial Sample.externals {} tasks (LocalBackend.withConfig {}))
    (List.replicate 15 (false, now) ++ List.replicate 4 (true, now))
    (fun d => decide (d.returned true = some (.payload (.ok [7])) ∧
      ⟨true, .databaseRead, .ok [7]⟩ ∉ d.history))
    (by decide +kernel)
  obtain ⟨returned, unread⟩ := of_decide_eq_true seen
  have fits (t : Bool) (request : CacheRequest) (h : tasks t = .getOrLoad request) :
      request.key.Fits Sample.externals.parser := by
    cases h
    exact Sample.keyInput_fits
  rcases payloads_are_shared (L := L) Sample.hash_injective Sample.externals_roundTrips fits rfl run
    (show tasks true = _ from rfl) (Config.returned_eq_some.mp returned) with read | shared
  · exact absurd read unread
  · exact ⟨d, unread, shared⟩

end RbatisCache.CacheInterceptor
