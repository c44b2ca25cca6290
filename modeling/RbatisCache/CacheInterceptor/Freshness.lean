import RbatisCache.CacheInterceptor.Call
import RbatisCache.Spi.LocalBackend
import RbatisCache.Spi.Sample

/-! No stale data across an invalidation. Every stored envelope was read from the database after
its generation began, so a call that sees a bump sees nothing from before it. -/
namespace RbatisCache.CacheInterceptor
open Interleaving Interleaving.Prog

section
variable {P T : Type}

/-- An increment of the generation of a namespace. -/
def isBump (nameSpace : String) (e : Event T Op (Op.Res P)) : Bool :=
  match e.op with
  | .backend (.bumpGeneration n) => n == nameSpace
  | _ => false

def bumps (nameSpace : String) (h : History P T) : Nat := h.countP (isBump nameSpace)

/-- Fewer than 2^64 bumps of one namespace happen. -/
def FewBumps {B : CacheBackend} : Restriction T Op (Op.Res P) (Choice B P) (World B T) :=
  fun _ op _ _ h => match op with
    | .backend (.bumpGeneration n) => bumps n h + 1 < 2 ^ 64
    | _ => True

instance {B : CacheBackend} (t : T) (op : Op) (ch : Choice B P) (w : World B T) (h : History P T) :
    Decidable (FewBumps t op ch w h) :=
  match op with
  | .backend (.bumpGeneration n) => inferInstanceAs (Decidable (bumps n h + 1 < 2 ^ 64))
  | .backend (.get _) | .backend (.put _ _ _) | .backend (.generation _) | .nowMs | .record _
  | .flightsEntry _ | .lock _ | .unlock _ | .releaseFlight _ _ | .dropFlight _ | .loaderStart
  | .loaderFinish | .databaseRead | .databaseWrite => .isTrue trivial

/-- A loader read the payload from the database when the generation had begun. -/
def ReadAt (h : History P T) (nameSpace : String) (generation : UInt64) (payload : P) : Prop :=
  ∃ t s, ⟨t, .databaseRead, .ok payload⟩ :: s <:+ h ∧ generation.toNat ≤ bumps nameSpace s

/-- The bytes are an envelope whose key has this digest and whose payload is as recent as the
generation of the key. -/
def Current (X : Externals P) (digest : String) (bytes : Bytes) (h : History P T) : Prop :=
  ∃ input key envelope, input.Fits X.parser ∧ CacheKey.build X input key.generation = .ok key ∧
    key.digest = digest ∧ CacheEnvelope.decode X bytes = .ok envelope ∧
    ReadAt h input.nameSpace key.generation envelope.payload

theorem ReadAt.suffix {h s : History P T} {n : String} {g : UInt64} {p : P} (hr : ReadAt s n g p)
    (hs : s <:+ h) : ReadAt h n g p := by
  obtain ⟨t, r, hr, hg⟩ := hr
  exact ⟨t, r, hr.trans hs, hg⟩

theorem Current.suffix {X : Externals P} {h s : History P T} {k : String} {b : Bytes}
    (hc : Current X k b s) (hs : s <:+ h) : Current X k b h := by
  obtain ⟨input, key, envelope, hf, hb, hk, hd, hr⟩ := hc
  exact ⟨input, key, envelope, hf, hb, hk, hd, hr.suffix hs⟩

theorem Current.cons {X : Externals P} {h : History P T} {e : Event T Op (Op.Res P)} {k : String}
    {b : Bytes} (hc : Current X k b h) : Current X k b (e :: h) :=
  hc.suffix (List.suffix_cons _ _)

/-- What is owed by a task before an operation. -/
def Owed [DecidableEq T] (X : Externals P) (t : T) (op : Op) (h : History P T) : Prop :=
  match op with
  | .backend (.put k v _) => Current X k v h
  | .backend (.bumpGeneration _) => ⟨t, .databaseWrite, ()⟩ ∈ h
  | .backend (.generation _) => h.own t = []
  | _ => True

end

section
variable {P T : Type} {B : CacheBackend} {H : B.Healthy} {w u : World B T} {h : History P T} {t : T}
variable {Q : String → Bytes → History P T → Prop}

private theorem bumps_cons_of_not {n : String} {e : Event T Op (Op.Res P)} (he : isBump n e = false) :
    bumps n (e :: h) = bumps n h := by
  rw [bumps, bumps, List.countP_cons_of_neg]
  simp [he]

theorem bumps_cons_quiet {t : T} {op : Op} {r : op.Res P} (hop : ∀ o, op ≠ .backend o) (n : String) :
    bumps n (⟨t, op, r⟩ :: h) = bumps n h := by
  apply bumps_cons_of_not
  cases op with
  | backend o => exact absurd rfl (hop o)
  | _ => rfl

theorem bumps_cons_backend {t : T} {op : BackendOp} {r : op.Res} {n : String} :
    bumps n (⟨t, .backend op, r⟩ :: h) = bumps n h + Store.bumpCount n op := by
  cases op with
  | bumpGeneration m =>
    by_cases hm : m = n
    · subst hm
      simp [bumps, isBump, Store.bumpCount]
    · simp [bumps, isBump, Store.bumpCount, hm]
  | _ => simp [bumps, isBump, Store.bumpCount]

/-- A healthy backend goes on counting the bumps, as long as they are few. -/
theorem counter_serves (counter : ∀ n, ((H.abs w.backend).counter n).toNat = bumps n h) {t : T}
    {op : BackendOp} {r : op.Res} (hs : Store.Serves op r (H.abs w.backend) (H.abs u.backend))
    {ch : Choice B P} (hf : FewBumps t (.backend op) ch w h) (n : String) :
    ((H.abs u.backend).counter n).toNat = bumps n (⟨t, .backend op, r⟩ :: h) := by
  rw [bumps_cons_backend, ← counter]
  refine hs.counter fun bump => ?_
  subst bump
  rw [counter]
  exact hf

/-- The backend counts the bumps, and all that it holds or has served is as it should be. -/
structure Backed (Q : String → Bytes → History P T → Prop) (H : B.Healthy) (w : World B T)
    (h : History P T) : Prop where
  counter : ∀ n, ((H.abs w.backend).counter n).toNat = bumps n h
  stored : ∀ k b, (H.abs w.backend).content k = some b → Q k b h
  served : ∀ t k b, ⟨t, .backend (.get k), .ok (some b)⟩ ∈ h → Q k b h

/-- Operations on anything but the backend. -/
theorem Backed.quiet (backed : Backed Q H w h)
    (grows : ∀ {h : History P T} {e : Event T Op (Op.Res P)} {k b}, Q k b h → Q k b (e :: h))
    (hb : u.backend = w.backend) {op : Op} {r : op.Res P} (hop : ∀ o, op ≠ .backend o) :
    Backed Q H u (⟨t, op, r⟩ :: h) where
  counter n := by rw [hb, bumps_cons_quiet hop, backed.counter]
  stored k b hk := by
    rw [hb] at hk
    exact grows (backed.stored k b hk)
  served s k b hm := by
    rcases List.mem_cons.mp hm with he | hm
    · cases he
      exact absurd rfl (hop _)
    · exact grows (backed.served s k b hm)

/-- A call to a healthy backend that puts only what it should. -/
theorem Backed.serves (backed : Backed Q H w h)
    (grows : ∀ {h : History P T} {e : Event T Op (Op.Res P)} {k b}, Q k b h → Q k b (e :: h))
    {op : BackendOp} {r : op.Res} (hs : Store.Serves op r (H.abs w.backend) (H.abs u.backend))
    {ch : Choice B P} (hf : FewBumps t (.backend op) ch w h)
    (puts : ∀ k v ttl, op = .put k v ttl → Q k v h) : Backed Q H u (⟨t, .backend op, r⟩ :: h) where
  counter := counter_serves backed.counter hs hf
  stored k b hk := by
    rcases hs.content hk with old | ⟨ttl, put⟩
    · exact grows (backed.stored k b old)
    · exact grows (puts k b ttl put)
  served s k b hm := by
    rcases List.mem_cons.mp hm with he | hm
    · cases he
      rcases hs.1 with none | found
      · cases none
      · exact grows (backed.stored k b (Except.ok.inj found).symm)
    · exact grows (backed.served s k b hm)

end

section
variable {P T : Type} [DecidableEq T] {B : CacheBackend}

/-- What the backend and the history have to do with each other. -/
structure Fresh (X : Externals P) (H : B.Healthy) (w : World B T) (h : History P T) : Prop
    extends Backed (Current X) H w h where
  answered : h.Always fun e s => ∀ t n g, e = ⟨t, .backend (.generation n), .ok g⟩ →
    g.toNat = bumps n s ∧ s.own t = []
  written : h.Always fun e s => ∀ t n r, e = ⟨t, .backend (.bumpGeneration n), r⟩ →
    ⟨t, .databaseWrite, ()⟩ ∈ s

variable {X : Externals P} {H : B.Healthy} {w u : World B T} {h : History P T}

/-- Operations on anything but the backend. -/
theorem Fresh.quiet (hi : Fresh X H w h) (hb : u.backend = w.backend) {t : T} {op : Op}
    {r : op.Res P} (hop : ∀ o, op ≠ .backend o) : Fresh X H u (⟨t, op, r⟩ :: h) := by
  have backed := hi.toBacked.quiet Current.cons hb hop (t := t) (r := r)
  refine ⟨backed, hi.answered.cons ?_, hi.written.cons ?_⟩
  · intro s n g he
    cases he
    exact absurd rfl (hop _)
  · intro s n g he
    cases he
    exact absurd rfl (hop _)

theorem Fresh.serves (hi : Fresh X H w h) {t : T} {op : BackendOp} {r : op.Res}
    (hs : Store.Serves op r (H.abs w.backend) (H.abs u.backend))
    (ho : Owed X t (.backend op) h)
    {ch : Choice B P} (hf : FewBumps t (.backend op) ch w h) :
    Fresh X H u (⟨t, .backend op, r⟩ :: h) := by
  have backed := hi.toBacked.serves Current.cons hs hf fun k v ttl put => by
    subst put
    exact ho
  refine ⟨backed, hi.answered.cons ?_, hi.written.cons ?_⟩
  · intro s n g he
    cases he
    obtain rfl := Except.ok.inj hs.1
    exact ⟨hi.counter n, ho⟩
  · intro s n g he
    cases he
    exact ho

/-- Every step of every task that pays what it owes. -/
theorem Fresh.step (hi : Fresh X H w h) {t : T} {op : Op} {ch : Choice B P} {r : op.Res P}
    (ho : Owed X t op h) (hf : FewBumps t op ch w h)
    (hm : (machine B P T).perform t op ch w = some (r, u)) : Fresh X H u (⟨t, op, r⟩ :: h) := by
  by_cases hop : ∀ o, op ≠ .backend o
  · exact hi.quiet (backend_of_perform hop hm) hop
  · push Not at hop
    obtain ⟨op, rfl⟩ := hop
    cases hm
    exact hi.serves (H.serves op ch.backend w.backend) ho hf

theorem suffix_singleton_inj {α : Type} {a b : α} {l : List α} (ha : [a] <:+ l)
    (hb : [b] <:+ l) : a = b := by
  obtain ⟨m, rfl⟩ := ha
  obtain ⟨n, hn⟩ := hb
  exact (List.cons.inj (List.append_inj' hn rfl).2).1.symm

/-- What a call reads after its generation is as recent as that generation. -/
theorem Fresh.readAt (hi : Fresh X H w h) {t : T} {n : String} {g : UInt64} {p : P}
    (hg : [⟨.backend (.generation n), .ok g⟩] <:+ h.own t)
    (hp : ⟨.databaseRead, .ok p⟩ ∈ h.own t) : ReadAt h n g p := by
  obtain ⟨l, hl⟩ := hg
  obtain ⟨s, hs, ho⟩ := History.exists_suffix_of_own hl.symm
  obtain ⟨r, hr⟩ := History.exists_suffix_of_mem_own hp
  refine ⟨t, r, hr, ?_⟩
  rw [(hi.answered _ _ hs t n g rfl).1]
  rcases List.suffix_or_suffix_of_suffix hs hr with hsr | hrs
  · rcases List.suffix_cons_iff.mp hsr with he | hsr
    · cases (List.cons.inj he).1
    · exact ((List.suffix_cons _ _).trans hsr).sublist.countP_le
  · rcases List.suffix_cons_iff.mp hrs with he | hrs
    · cases (List.cons.inj he).1
    · have hm := History.mem_own.mpr (hrs.subset List.mem_cons_self)
      rw [ho] at hm
      cases hm

theorem Accounted.readAt (hash : Function.Injective X.blake3) (hi : Fresh X H w h)
    {request : CacheRequest} (fits : request.key.Fits X.parser) {t : T} {g : UInt64} {p : P}
    (hg : [⟨.backend (.generation request.key.nameSpace), .ok g⟩] <:+ h.own t)
    (ha : Accounted X request p (h.own t)) : ReadAt h request.key.nameSpace g p := by
  rcases ha with read | ⟨g', key, keyed, bytes, envelope, got, decoded, payload⟩
  · exact hi.readAt hg read
  · cases suffix_singleton_inj keyed.read hg
    obtain ⟨input', key', envelope', fits', built', digest, decoded', read⟩ :=
      hi.served t _ _ (History.mem_own.mp got)
    obtain ⟨hn, hg'⟩ := CacheKey.origin_of_digest hash built' keyed.built fits' fits digest
    rw [decoded'] at decoded
    cases decoded
    rw [← hn, ← hg', ← payload]
    exact read

/-- A call or a writer has made sure of what it owes. -/
theorem Fresh.owed (codec : X.RoundTrips) {policy : CachePolicy} {task : Task}
    (fits : ∀ request, task = .getOrLoad request → request.key.Fits X.parser)
    (hi : Fresh X H w h) {t : T} {op : Op} (hr : task.rule X policy (h.own t) op) :
    Owed X t op h := by
  cases task with
  | getOrLoad request =>
    match op with
    | .backend (.generation n) => exact hr.1
    | .backend (.get k) => trivial
    | .backend (.put k v ttl) =>
      obtain ⟨g, key, p, now, keyed, digest, read, encoded, -⟩ := hr
      obtain rfl := CacheKey.build_generation keyed.built
      exact ⟨request.key, key, _, fits request rfl, keyed.built, digest,
        CacheEnvelope.decode_encode codec encoded, hi.readAt keyed.read read⟩
    | .backend (.bumpGeneration n) => exact hr.elim
    | .nowMs | .record _ | .flightsEntry _ | .lock _ | .unlock _ | .releaseFlight _ _
    | .dropFlight _ | .loaderStart | .loaderFinish | .databaseRead | .databaseWrite => trivial
  | write n =>
    match op with
    | .backend (.bumpGeneration m) => exact History.mem_own.mp hr.2
    | .backend (.generation m) | .backend (.put k v ttl) => exact hr.elim
    | .backend (.get _) | .nowMs | .record _ | .flightsEntry _ | .lock _ | .unlock _
    | .releaseFlight _ _ | .dropFlight _ | .loaderStart | .loaderFinish | .databaseRead
    | .databaseWrite => trivial

variable {policy : CachePolicy}

/-- Every step of every call and writer keeps the stored envelopes current. -/
theorem fresh_preserved (codec : X.RoundTrips) {tasks : T → Task}
    (fits : ∀ t request, tasks t = .getOrLoad request → request.key.Fits X.parser) :
    Preserves (machine B P T) FewBumps (fun t => (tasks t).rule X policy) (Fresh X H) :=
  fun t _ _ _ _ _ _ hi hr ha hm => hi.step (hi.owed codec (fits t) hr) ha hm

private theorem fresh_initial {tasks : T → Task} {state : B.State} (he : H.abs state = .empty) :
    Fresh X H (initial X policy tasks state).world (initial X policy tasks state).history where
  counter n := by simp [initial, World.new, he, Store.empty, bumps]
  stored k b hk := by simp [initial, World.new, he, Store.empty] at hk
  served t k b hm := by simp [initial] at hm
  answered := History.always_nil
  written := History.always_nil

/-- In a run of a fresh history, a payload that is as recent as a generation is more recent than
all database writes whose bump the generation has seen. -/
theorem Fresh.write_precedes (hi : Fresh X H w h) {call writer : T} {n : String} {g m : UInt64}
    {p : P} (hread : ReadAt h n g p)
    (hafter : h.Precedes ⟨writer, .backend (.bumpGeneration n), .ok m⟩
      ⟨call, .backend (.generation n), .ok g⟩) :
    ∃ reader, h.Precedes ⟨writer, .databaseWrite, ()⟩ ⟨reader, .databaseRead, .ok p⟩ := by
  obtain ⟨r, hr, hbump⟩ := hafter
  obtain ⟨reader, s, hs, hg⟩ := hread
  have hcount := (hi.answered _ _ hr call n g rfl).1
  rw [hcount] at hg
  have hrs := History.mem_of_countP_le ((List.suffix_cons _ _).trans hr)
    ((List.suffix_cons _ _).trans hs) hg hbump (by simp [isBump])
  obtain ⟨q, hq⟩ := History.exists_suffix_of_mem hrs
  have hw := hi.written _ q (hq.trans ((List.suffix_cons _ _).trans hs)) writer n _ rfl
  exact ⟨reader, s, hs, hq.subset (List.mem_cons_of_mem _ hw)⟩

end

/-- No stale data across an invalidation: a call whose generation read follows a writer's bump
returns a payload that was read from the database after that writer's write. -/
theorem getOrLoad_never_stale {P T : Type} [DecidableEq T] {X : Externals P} {policy : CachePolicy}
    {config : LocalBackendConfig} {tasks : T → Task} (hash : Function.Injective X.blake3)
    (codec : X.RoundTrips)
    (fits : ∀ t request, tasks t = .getOrLoad request → request.key.Fits X.parser)
    {d : Config T Op (Op.Res P) (World (LocalBackend.backend X.blake3) T) (Reply P)}
    (run : Reaches (machine (LocalBackend.backend X.blake3) P T) FewBumps
      (initial X policy tasks (LocalBackend.withConfig config)) d)
    {call writer : T} {request : CacheRequest} (called : tasks call = .getOrLoad request)
    {g m : UInt64}
    (after : d.history.Precedes
      ⟨writer, .backend (.bumpGeneration request.key.nameSpace), .ok m⟩
      ⟨call, .backend (.generation request.key.nameSpace), .ok g⟩)
    {p : P} (returned : d.tasks call = .ret (.payload (.ok p))) :
    ∃ loader, d.history.Precedes ⟨writer, .databaseWrite, ()⟩ ⟨loader, .databaseRead, .ok p⟩ := by
  let H := LocalBackend.healthy X.blake3
  obtain ⟨hi, hd⟩ := run.preserves (fresh_preserved (H := H) codec fits) (obeys_initial tasks _)
    (fresh_initial rfl)
  have hend := hd.returned returned
  simp only [called, Task.End] at hend
  obtain ⟨result, hresult, hend⟩ := hend
  cases hresult
  obtain ⟨r, hr, hbump⟩ := id after
  have ho := (hi.answered _ _ hr call _ g rfl).2
  have hg : [⟨.backend (.generation request.key.nameSpace), .ok g⟩] <:+ d.history.own call := by
    obtain ⟨l, hl⟩ := hr
    refine ⟨History.own l call, ?_⟩
    rw [← hl, History.own_append, History.own_cons_self, ho]
  exact hi.write_precedes ((hend.ok p rfl).readAt hash hi (fits call request called) hg) after

/-- A writer invalidates, then a call loads. -/
theorem getOrLoad_after_invalidation :
    ∃ d : Config Bool Op (Op.Res Bytes) (World (LocalBackend.backend Sample.hash) Bool)
        (Reply Bytes),
      d.returned false = some (.payload (.ok [7])) ∧ ∃ loader,
        d.history.Precedes ⟨true, .databaseWrite, ()⟩ ⟨loader, .databaseRead, .ok [7]⟩ := by
  let tasks : Bool → Task := fun t => if t then .write "ns" else .getOrLoad ⟨Sample.keyInput, false⟩
  let now : Choice (LocalBackend.backend Sample.hash) Bytes := ⟨⟨[], 5⟩, 5, .ok [7]⟩
  obtain ⟨d, run, seen⟩ := play_observed (M := machine _ Bytes Bool) (A := FewBumps)
    (c := initial Sample.externals {} tasks (LocalBackend.withConfig {}))
    (List.replicate 3 (true, now) ++ List.replicate 15 (false, now))
    (fun d => decide (d.returned false = some (.payload (.ok [7])) ∧ d.history.Precedes
      ⟨true, .backend (.bumpGeneration "ns"), .ok 1⟩ ⟨false, .backend (.generation "ns"), .ok 1⟩))
    (by decide +kernel)
  obtain ⟨returned, after⟩ := of_decide_eq_true seen
  have fits (t : Bool) (request : CacheRequest) (h : tasks t = .getOrLoad request) :
      request.key.Fits Sample.externals.parser := by
    cases t with
    | true => cases h
    | false =>
      cases h
      exact Sample.keyInput_fits
  exact ⟨d, returned, getOrLoad_never_stale Sample.hash_injective Sample.externals_roundTrips fits
    run (show tasks false = _ from rfl) after (Config.returned_eq_some.mp returned)⟩

end RbatisCache.CacheInterceptor
