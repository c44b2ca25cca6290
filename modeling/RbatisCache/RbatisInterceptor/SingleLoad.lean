import RbatisCache.RbatisInterceptor.Invalidations
import RbatisCache.RbatisInterceptor.Misses
import RbatisCache.RbatisInterceptor.Writes

/-! Concurrent queries for one and the same result. `after` wakes the followers before it stores the
entry, so a query may miss, and be elected when the load has already been removed. -/
namespace RbatisCache.RbatisInterceptor
open Interleaving
open RbatisCacheInterceptor

section
variable {V T : Type}

def Op.isRemoval : Op V → Bool
  | .removeLoad _ => true
  | _ => false

def isLoad (e : Event T (Op V) Op.Res) : Bool :=
  match e.op with
  | .databaseQuery _ => true
  | _ => false

/-- All that a query has looked up in the backend it has looked up before anything was put there. -/
def Early [DecidableEq T] (t : T) (h : History V T) : Prop :=
  h.Always fun e s => e.task = t → e.op.isGet = true → ∀ x ∈ s, x.op.isPut = false

/-- The bytes that were put last. -/
def latest (k : String) (h : History V T) : Option Bytes :=
  h.findSome? fun e => match e.op with
    | .backend (.put k' bytes _) => if k' = k then some bytes else none
    | _ => none

section
variable {B : CacheBackend} (I : RbatisCacheInterceptor) (X : Externals Bytes) (C : ValueCodec V)

/-- The backend loses nothing, no entry expires, and the database returns something that can be read
back from the cache. -/
def Lossless (H : B.Healthy) : Restriction T (Op V) Op.Res (Choice B V) (World B V) :=
  fun _ op ch w h =>
  match op with
  | .backend o => Store.Keeps o (B.perform o ch.backend w.backend).1 (H.abs w.backend)
      (H.abs (B.perform o ch.backend w.backend).2)
  | .nowMs => ∀ e ∈ h, ∀ k bytes ttl, e.op = .backend (.put k bytes ttl) →
      ∀ envelope, CacheEnvelope.decode X bytes = .ok envelope → ch.now < envelope.expiresAtMs
  | .databaseQuery _ => ∃ v, ch.queried = .ok v ∧
      ∀ payload, C.toVecNamed v = .ok payload → ∃ u, C.fromSlice payload = .ok u
  | _ => True

/-- A query that has missed before the entry was stored asks for election only while the load has
not been removed, and not a third time. -/
def AsksInTime [DecidableEq T] : Restriction T (Op V) Op.Res (Choice B V) (World B V) :=
  fun t op _ _ h => op.candidate.isSome = true → Early t h →
    (∀ e ∈ h, e.op.isRemoval = false) ∧ asks (History.own h t) < 2

def Prompt [DecidableEq T] (H : B.Healthy) : Restriction T (Op V) Op.Res (Choice B V) (World B V) :=
  fun t op ch w h => Lossless X C H t op ch w h ∧ AsksInTime t op ch w h

/-- Queries outside transactions that have one and the same key. -/
structure Alike (calls : T → Call V) : Prop where
  outside : ∀ t, (calls t).rb.isInTransaction = false
  cacheable : ∀ t, isCacheable I X (calls t).sql = true
  sql : ∀ t u, (calls t).sql = (calls u).sql
  args : ∀ t u, (calls t).args = (calls u).args
  driver : ∀ t u, (calls t).rb.driverType = (calls u).rb.driverType

abbrev selecting (calls : T → Call V) : T → Task V := fun t => .statement (.query (calls t))

/-- The database has been asked once at most, and once if any query has returned. All others have
been answered from the cache, with what has been loaded. -/
structure LoadedOnce (calls : T → Call V) (c : Config T (Op V) Op.Res (World B V) (Reply V)) :
    Prop where
  once : c.history.countP isLoad ≤ 1
  loaded : ∀ t reply, c.tasks t = .ret reply → c.history.countP isLoad = 1
  answered : ∀ t reply, c.tasks t = .ret reply →
    (∃ result, ⟨t, .databaseQuery (calls t), result⟩ ∈ c.history) ∨
      ∃ v, reply = .queried (.ok v) ∧
        ⟨t, .leave (.before (calls t) (.query ())) (.ok (.return v)), ()⟩ ∈ c.history ∧
        ∃ u v₀, ⟨u, .databaseQuery (calls u), .ok v₀⟩ ∈ c.history ∧ Yields C v₀ v

end

variable {h s : History V T} {t u : T} {k : String} {bytes : Bytes}

/-! ### The backend mirrors the history -/

private theorem latest_cons {op : Op V} {r : op.Res} :
    latest k (⟨t, op, r⟩ :: h) = match op with
      | .backend (.put k' bytes _) => if k' = k then some bytes else latest k h
      | _ => latest k h := by
  cases op with
  | backend o =>
    cases o with
    | put k' bytes ttl =>
      by_cases hk : k' = k
      · simp [latest, hk]
      · simp [latest, hk]
    | _ => rfl
  | _ => rfl

private theorem put_of_latest (hl : latest k h = some bytes) :
    ∃ u ttl r, ⟨u, .backend (.put k bytes ttl), r⟩ ∈ h := by
  obtain ⟨⟨u, op, r⟩, hm, he⟩ := List.exists_of_findSome?_eq_some hl
  cases op with
  | backend o =>
    cases o with
    | put k' b ttl =>
      obtain ⟨rfl, hb⟩ := Option.ite_none_right_eq_some.mp he
      cases hb
      exact ⟨u, ttl, r, hm⟩
    | _ => cases he
  | _ => cases he

private theorem latest_of_put {ttl : Duration} {r : Except CacheError Unit}
    (hm : ⟨u, .backend (.put k bytes ttl), r⟩ ∈ h) : ∃ b, latest k h = some b := by
  refine Option.isSome_iff_exists.mp (List.findSome?_isSome_iff.mpr ⟨_, hm, ?_⟩)
  simp

/-- The backend holds what was put last, and has always answered so. -/
structure Mirrored {B : CacheBackend} (H : B.Healthy) (w : World B V) (h : History V T) : Prop where
  content : ∀ k, (H.abs w.backend).content k = latest k h
  answered : h.Always fun e s => ∀ t k r, e = ⟨t, .backend (.get k), r⟩ → r = .ok (latest k s)

section
variable [DecidableEq T] {B : CacheBackend} {H : B.Healthy} {I : RbatisCacheInterceptor}
variable {X : Externals Bytes} {C : ValueCodec V} {calls : T → Call V} {state : B.State}
variable {c : Config T (Op V) Op.Res (World B V) (Reply V)}

omit [DecidableEq T] in
private theorem mirrored_step {op : Op V} {ch : Choice B V} {w v : World B V} {r : op.Res}
    (hi : Mirrored H w h) (lossless : Lossless X C H t op ch w h)
    (hm : (machine B V T I).perform t op ch w = some (r, v)) : Mirrored H v (⟨t, op, r⟩ :: h) := by
  by_cases hop : ∀ o, op ≠ .backend o
  · refine ⟨fun k => ?_, hi.answered.cons fun t' k r' he => ?_⟩
    · rw [backend_of_perform hop hm, hi.content, latest_cons]
      cases op with
      | backend o => exact absurd rfl (hop o)
      | _ => rfl
    · cases he
      exact absurd rfl (hop _)
  · push Not at hop
    obtain ⟨o, rfl⟩ := hop
    obtain ⟨hr, rfl⟩ := Prod.mk.inj (Option.some.inj hm)
    have keeps : Store.Keeps o (B.perform o ch.backend w.backend).1 (H.abs w.backend)
      (H.abs (B.perform o ch.backend w.backend).2) := lossless
    rw [hr] at keeps
    refine ⟨fun k => ?_, hi.answered.cons fun t' k r' he => ?_⟩
    · rw [latest_cons, ← hi.content]
      cases o with
      | put k' bytes ttl =>
        have state : H.abs (B.perform (.put k' bytes ttl) ch.backend w.backend).2 =
          (H.abs w.backend).put k' bytes := keeps.2
        dsimp only
        rw [state]
        split
        · next hk =>
          subst hk
          exact Store.put_content_self ..
        · next hk => exact Store.put_content_ne _ _ (Ne.symm hk)
      | get | generation | bumpGeneration => exact congrArg (fun store => store.content k) keeps.2
    · cases he
      exact keeps.1.trans (congrArg Except.ok (hi.content k))

private theorem reaches_mirrored (cold : ∀ k, (H.abs state).content k = none)
    (run : Reaches (machine B V T I) (Prompt X C H) (initial I X C (selecting calls) state) c) :
    Mirrored H c.world c.history := by
  have hp : Preserves (machine B V T I) (Prompt X C H) (fun t => rule I X C (selecting calls t))
      (Mirrored H) := fun _ _ _ _ _ _ _ hi _ ha hm => mirrored_step hi ha.1 hm
  have hstart : Mirrored H (initial I X C (selecting calls) state).world ([] : History V T) :=
    ⟨cold, History.always_nil⟩
  exact (run.preserves hp (obeys_initial _ state) hstart).1

/-! ### One key -/

omit [DecidableEq T] in
theorem Alike.input (alike : Alike I X calls) (t u : T) :
    buildKeyInput I C (calls t) = buildKeyInput I C (calls u) := by
  unfold buildKeyInput
  rw [alike.sql t u, alike.args t u, alike.driver t u]

/-- The hook calls of a query are about its call. -/
theorem call_of_selecting (law : Lawful (fun t => rule I X C (selecting calls t)) h) {hook : Hook V}
    (entered : Entered hook (h.own t)) : hook.call = some (calls t) ∧ hook.isQuery = true :=
  ⟨call_of_entered law entered, isQuery_of_entered law entered⟩

/-- Nobody bumps a generation. -/
theorem bumps_of_selecting (law : Lawful (fun t => rule I X C (selecting calls t)) h) (n : String) :
    bumps n h = 0 := by
  refine List.countP_eq_zero.mpr fun e hm bump => ?_
  obtain ⟨s, hs⟩ := History.exists_suffix_of_mem hm
  obtain ⟨t, op, r⟩ := e
  obtain rfl : op = _ := op_of_isBump bump
  have past := law.suffix ((List.suffix_cons _ _).trans hs)
  have bumps : Bumps I n (History.own s t) := law _ _ hs
  cases bumps with
  | exec dml outside cleared own =>
    obtain ⟨er, entered, -⟩ := dml
    cases (call_of_selecting past entered).2
  | commit entered => cases (call_of_selecting past entered).2

/-- All generations that are read are one and the same. -/
theorem generation_constant (run : Reaches (machine B V T I) (Prompt X C H)
    (initial I X C (selecting calls) state) c) {n : String} {g g' : UInt64}
    (read : ⟨t, .backend (.generation n), .ok g⟩ ∈ c.history)
    (read' : ⟨u, .backend (.generation n), .ok g'⟩ ∈ c.history) : g = g' := by
  have law := reaches_lawful run
  have numbered := (reaches_numbered H run).answered
  have first {t : T} {g : UInt64} (read : ⟨t, .backend (.generation n), .ok g⟩ ∈ c.history) :
      g = (H.abs state).counter n + UInt64.ofNat 0 := by
    obtain ⟨s, hs⟩ := History.exists_suffix_of_mem read
    rw [numbered _ _ hs t n g rfl,
      bumps_of_selecting (law.suffix ((List.suffix_cons _ _).trans hs)) n]
  exact (first read).trans (first read').symm

/-- So there is only one key, and its digest is the only one. -/
theorem digest_unique (alike : Alike I X calls) (run : Reaches (machine B V T I) (Prompt X C H)
    (initial I X C (selecting calls) state) c) {d d' : String} {p q : History V T}
    (hp : p <:+ c.history) (hq : q <:+ c.history) (aimed : Aimed I X C (calls t) d (p.own t))
    (aimed' : Aimed I X C (calls u) d' (q.own u)) : d = d' := by
  obtain ⟨key, read, built, rfl⟩ := aimed
  obtain ⟨key', read', built', rfl⟩ := aimed'
  have same := generation_constant run (hp.subset (History.mem_own.mp read))
    (hq.subset (History.mem_own.mp read'))
  rw [alike.input t u, same, built'] at built
  cases built
  rfl

private theorem aimed_of_get (law : Lawful (fun t => rule I X C (selecting calls t)) h)
    {r : Except CacheError (Option Bytes)} (hs : ⟨t, .backend (.get k), r⟩ :: s <:+ h) :
    Aimed I X C (calls t) k (s.own t) := by
  have past := law.suffix ((List.suffix_cons _ _).trans hs)
  obtain ⟨call, key, looks, digest⟩ : ∃ call key, LooksUp I X C call key (s.own t) ∧ key.digest = k :=
    law _ _ hs
  cases (call_of_selecting past looks.entered).1
  exact ⟨key, looks.read, looks.built, digest⟩

/-- What is handed to the `after` of a query the database has returned to its task. -/
theorem loaded_of_entered (law : Lawful (fun t => rule I X C (selecting calls t)) h) {call : Call V}
    {v : V} (entered : Entered (.after call (.query (.ok v))) (h.own t)) :
    call = calls t ∧ ⟨t, .databaseQuery (calls t), .ok v⟩ ∈ h := by
  cases (call_of_selecting law entered).1
  obtain ⟨q, hq⟩ := History.exists_suffix_of_mem_own entered
  obtain ⟨before, performed⟩ := read_of_entered law rfl hq
  have loaded : ⟨.databaseQuery (calls t), .ok v⟩ ∈ History.own q t := by
    rw [performed]
    exact List.mem_cons_self
  exact ⟨rfl, ((List.suffix_cons _ _).trans hq).subset (History.mem_own.mp loaded)⟩

/-- What is put is the envelope of what the database has returned to the task. -/
theorem stored_of_put (law : Lawful (fun t => rule I X C (selecting calls t)) h) {ttl : Duration}
    {r : Except CacheError Unit} (hs : ⟨t, .backend (.put k bytes ttl), r⟩ :: s <:+ h) :
    ∃ key v, key.digest = k ∧ Encodes X C key v bytes ∧
      ⟨.backend (.generation I.nameSpace), .ok key.generation⟩ ∈ s.own t ∧
      CacheKey.build X (buildKeyInput I C (calls t)) key.generation = .ok key ∧
      ⟨t, .databaseQuery (calls t), .ok v⟩ ∈ s := by
  have past := law.suffix ((List.suffix_cons _ _).trans hs)
  have stores : Stores I X C k bytes (s.own t) := law _ _ hs
  cases stores with
  | @loaded call key v resolved digest encodes =>
    obtain ⟨rfl, loaded⟩ := loaded_of_entered past resolved.entered
    obtain ⟨rest, read⟩ := resolved.read
    exact ⟨key, v, digest, encodes, read.subset List.mem_cons_self, resolved.built, loaded⟩
  | flushed removed holds digest encodes =>
    obtain ⟨q, hq⟩ := History.exists_suffix_of_mem_own removed
    obtain ⟨event, entered, -⟩ := past _ _ hq
    have earlier := past.suffix ((List.suffix_cons _ _).trans hq)
    cases (call_of_selecting earlier entered).2

/-! ### Who asks for election -/

private theorem clock_permitted (run : Reaches (machine B V T I) (Prompt X C H)
    (initial I X C (selecting calls) state) c) :
    c.history.Always fun e s => ∀ t now, e = ⟨t, .nowMs, now⟩ → ∀ x ∈ s, ∀ k bytes ttl,
      x.op = .backend (.put k bytes ttl) → ∀ envelope, CacheEnvelope.decode X bytes = .ok envelope →
        now < envelope.expiresAtMs := by
  refine run.permitted (fun t op ch w h r u ha hm t' now he => ?_) rfl
  cases he
  obtain ⟨rfl, -⟩ := Prod.mk.inj (Option.some.inj hm)
  exact ha.1

private theorem readable_permitted (run : Reaches (machine B V T I) (Prompt X C H)
    (initial I X C (selecting calls) state) c) :
    c.history.Always fun e _ => ∀ t call v, e = ⟨t, .databaseQuery call, .ok v⟩ →
      ∀ payload, C.toVecNamed v = .ok payload → ∃ u, C.fromSlice payload = .ok u := by
  refine run.permitted (fun t op ch w h r u ha hm t' call v he => ?_) rfl
  cases he
  obtain ⟨answer, -⟩ := Prod.mk.inj (Option.some.inj hm)
  obtain ⟨v', queried, readable⟩ := ha.1
  cases queried.symm.trans answer
  exact readable

private theorem faultless (run : Reaches (machine B V T I) (Prompt X C H)
    (initial I X C (selecting calls) state) c) (hs : s <:+ c.history) : ¬ Fault (s.own t) := by
  have served : c.history.Always fun e _ => ∀ t o r, e = ⟨t, .backend o, r⟩ → ¬ o.Failed r := by
    refine run.permitted (fun t op ch w h r u ha hm t' o r' he failed => ?_) rfl
    cases he
    obtain ⟨rfl, -⟩ := Prod.mk.inj (Option.some.inj hm)
    have keeps := H.serves o ch.backend w.backend
    cases o with
    | get k =>
      obtain ⟨e, failed⟩ := failed
      rw [failed] at keeps
      rcases keeps.1 with keeps | keeps
      · cases keeps
      · cases keeps
    | put | generation | bumpGeneration =>
      obtain ⟨e, failed⟩ := failed
      rw [failed] at keeps
      cases keeps.1
  rintro ⟨o, r, hm, failed⟩
  obtain ⟨q, hq⟩ := History.exists_suffix_of_mem_own hm
  exact served _ _ (hq.trans hs) t o r rfl failed

/-- What the backend returns is never rejected. -/
theorem never_rejected (codec : X.RoundTrips)
    (cold : ∀ k, (H.abs state).content k = none)
    (run : Reaches (machine B V T I) (Prompt X C H) (initial I X C (selecting calls) state) c)
    (hs : s <:+ c.history) (got : ⟨.backend (.get k), .ok (some bytes)⟩ ∈ s.own t) :
    ¬ Rejected I X C k bytes (s.own t) := by
  have law := reaches_lawful run
  have mirrored := (reaches_mirrored cold run).answered
  have put_of_got {q : History V T} (hq : ⟨t, .backend (.get k), .ok (some bytes)⟩ :: q <:+ c.history) :
      ∃ u ttl r, ⟨u, .backend (.put k bytes ttl), r⟩ ∈ q :=
    put_of_latest (Except.ok.inj (mirrored _ _ hq t k _ rfl)).symm
  obtain ⟨q, hq⟩ := History.exists_suffix_of_mem_own got
  obtain ⟨u, ttl, r, hm⟩ := put_of_got (hq.trans hs)
  obtain ⟨p, hp⟩ := History.exists_suffix_of_mem hm
  have hpc := hp.trans ((List.suffix_cons _ _).trans (hq.trans hs))
  have hps : p <:+ c.history := (List.suffix_cons _ _).trans hpc
  obtain ⟨key, v, -, ⟨payload, ttl', stored, encoded, envelops⟩, read, -, loaded⟩ :=
    stored_of_put law hpc
  have envelope := CacheEnvelope.decode_encode codec envelops
  intro rejected
  cases rejected with
  | undecoded decoded =>
    rw [envelope] at decoded
    cases decoded
  | unreadable decoded value =>
    rw [envelope] at decoded
    cases decoded
    obtain ⟨x, hx⟩ := History.exists_suffix_of_mem loaded
    obtain ⟨y, readable⟩ := readable_permitted run _ _ (hx.trans hps) u _ v rfl payload encoded
    cases value.symm.trans readable
  | @stale _ g now rest decoded generation looked old =>
    rw [envelope] at decoded
    cases decoded
    obtain ⟨after, split⟩ := looked
    obtain ⟨m, hm, own⟩ := History.exists_suffix_of_own split.symm
    obtain ⟨m', hm', -⟩ := History.exists_suffix_of_own (show History.own m t = [] ++ _ from own)
    have hmc := (List.suffix_cons _ _).trans (hm.trans hs)
    obtain ⟨w, ttl'', r', hput⟩ := put_of_got (hm'.trans hmc)
    have live := clock_permitted run _ _ (hm.trans hs) t now rfl _
      (((List.suffix_cons _ _).trans hm').subset hput) k bytes ttl'' rfl _ envelope
    have same : g = key.generation := generation_constant run
      (hs.subset (History.mem_own.mp generation)) (hps.subset (History.mem_own.mp read))
    rw [same, CacheEnvelope.new_isFresh live] at old
    cases old

/-- Who has missed all the time has looked up nothing since something was put. -/
theorem early_of_missed (alike : Alike I X calls) (codec : X.RoundTrips)
    (cold : ∀ k, (H.abs state).content k = none)
    (run : Reaches (machine B V T I) (Prompt X C H) (initial I X C (selecting calls) state) c)
    (hs : s <:+ c.history) (missed : Missed I X C (s.own t)) : Early t s := by
  have law := reaches_lawful run
  intro e q hq task get x hx
  by_contra put
  obtain ⟨t', op, r⟩ := e
  obtain rfl : t' = t := task
  obtain ⟨k, rfl⟩ : ∃ k, op = .backend (.get k) := by
    cases op with
    | backend o =>
      cases o with
      | get k => exact ⟨k, rfl⟩
      | _ => cases get
    | _ => cases get
  obtain ⟨u, k', bytes, ttl, r', hput⟩ : ∃ u k' bytes ttl r',
      (⟨u, .backend (.put k' bytes ttl), r'⟩ : Event T (Op V) Op.Res) ∈ q := by
    obtain ⟨u, op, r'⟩ := x
    cases op with
    | backend o =>
      cases o with
      | put k' bytes ttl => exact ⟨u, k', bytes, ttl, r', hx⟩
      | _ => exact absurd rfl put
    | _ => exact absurd rfl put
  have hqc := hq.trans hs
  have hqs : q <:+ c.history := (List.suffix_cons _ _).trans hqc
  obtain ⟨p, hp⟩ := History.exists_suffix_of_mem hput
  have hpc : p <:+ c.history := (List.suffix_cons _ _).trans (hp.trans hqs)
  obtain ⟨key, v, digest, -, read, built, -⟩ := stored_of_put law (hp.trans hqs)
  have same : k' = k := digest_unique alike run hpc hqs ⟨key, read, built, digest⟩
    (aimed_of_get law hqc)
  subst same
  obtain ⟨b, stored⟩ := latest_of_put hput
  have answered := (reaches_mirrored cold run).answered _ _ hqc t' k' r rfl
  rw [stored] at answered
  subst answered
  have got : ⟨.backend (.get k'), .ok (some b)⟩ ∈ s.own t' :=
    History.mem_own.mpr (hq.subset List.mem_cons_self)
  exact never_rejected codec cold run hs got (missed k' b got)

private theorem reaches_misses (alike : Alike I X calls) (blocking : I.policy.blocking = true)
    {A : Restriction T (Op V) Op.Res (Choice B V) (World B V)}
    (run : Reaches (machine B V T I) A (initial I X C (selecting calls) state) c) :
    Lawful (fun t => misses I X C (calls t)) c.history ∧
      c.Obeys (fun t => misses I X C (calls t)) fun t => Outcome (calls t) :=
  run.lawful_of_obeys (fun t => misses_query (alike.cacheable t) blocking (alike.outside t)) rfl

variable (alike : Alike I X calls) (codec : X.RoundTrips) (blocking : I.policy.blocking = true)
variable (cold : ∀ k, (H.abs state).content k = none)
variable (run : Reaches (machine B V T I) (Prompt X C H) (initial I X C (selecting calls) state) c)
include alike codec blocking cold run

/-- Every election takes place while no load has been removed, and is the first or the second of its
task. -/
theorem asked_in_time {d : String} {role : LoadRole}
    (asked : ⟨t, .tryBeginLoad d, role⟩ :: s <:+ c.history) :
    (∀ e ∈ s, e.op.isRemoval = false) ∧ asks (s.own t) < 2 := by
  have permitted : c.history.Always fun e s => e.op.candidate.isSome = true → Early e.task s →
      (∀ e ∈ s, e.op.isRemoval = false) ∧ asks (History.own s e.task) < 2 :=
    run.permitted (fun _ _ _ _ _ _ _ ha _ => ha.2) rfl
  have missed := ((reaches_misses alike blocking run).1 _ _ asked).2
  exact permitted _ _ asked rfl
    (early_of_missed alike codec cold run ((List.suffix_cons _ _).trans asked) missed)

private theorem asks_le (hs : s <:+ c.history) : asks (s.own t) ≤ 2 := by
  induction s with
  | nil => exact Nat.zero_le 2
  | cons e s ih =>
    have before := ih ((List.suffix_cons _ _).trans hs)
    obtain ⟨u, op, r⟩ := e
    by_cases same : u = t
    · subst same
      rw [History.own_cons_self]
      cases op with
      | tryBeginLoad d =>
        have fewer := (asked_in_time alike codec blocking cold run hs).2
        rw [asks, List.countP_cons_of_pos rfl]
        exact fewer
      | _ => exact before
    · rw [History.own_cons_ne same]
      exact before

/-- Only one query is elected. -/
theorem leader_unique {d d' : String} (elected : ⟨t, .tryBeginLoad d, .leader⟩ ∈ c.history)
    (elected' : ⟨u, .tryBeginLoad d', .leader⟩ ∈ c.history) : t = u := by
  obtain ⟨p, hp⟩ := History.exists_suffix_of_mem elected
  obtain ⟨q, hq⟩ := History.exists_suffix_of_mem elected'
  have law := (reaches_misses alike blocking run).1
  have tracked := (reaches_tracked run).2.1
  obtain rfl : d = d' := digest_unique alike run ((List.suffix_cons _ _).trans hp)
    ((List.suffix_cons _ _).trans hq) (law _ _ hp).1 (law _ _ hq).1
  -- of two elections the later one would have found the load of the earlier one
  have later {t u : T} {p q : History V T} (hp : ⟨t, .tryBeginLoad d, .leader⟩ :: p <:+ q)
      (hq : ⟨u, .tryBeginLoad d, .leader⟩ :: q <:+ c.history) : False := by
    have kept : ¬ LoadRemoved d (⟨t, .tryBeginLoad d, .leader⟩ :: p) q := by
      rintro ⟨w, x, hx, -⟩
      cases (asked_in_time alike codec blocking cold run hq).1 _ (hx.subset List.mem_cons_self)
    have held := holder_of_not_removed (tracked.found.suffix ((List.suffix_cons _ _).trans hq)) hp kept
    have free := (tracked.found _ _ hq : FoundHeld ⟨u, .tryBeginLoad d, .leader⟩ q).mp rfl
    rw [free] at held
    cases held
  rcases List.suffix_or_suffix_of_suffix hp hq with hs | hs
  · rcases List.suffix_cons_iff.mp hs with hs | hs
    · cases hs
      rfl
    · exact (later hs hq).elim
  · rcases List.suffix_cons_iff.mp hs with hs | hs
    · cases hs
      rfl
    · exact (later hs hp).elim

/-- Who goes to the database has been elected. -/
theorem elected_of_load {call : Call V} {r : Except String V}
    (hs : ⟨t, .databaseQuery call, r⟩ :: s <:+ c.history) :
    ∃ d, ⟨t, .tryBeginLoad d, .leader⟩ ∈ c.history := by
  have past : s <:+ c.history := (List.suffix_cons _ _).trans hs
  have admitted : Admitted (s.own t) := ((reaches_misses alike blocking run).1 _ _ hs).1
  cases admitted with
  | @elected d leads => exact ⟨d, past.subset (History.mem_own.mp leads)⟩
  | tired asked =>
    have few := asks_le (t := t) alike codec blocking cold run past
    omega
  | faulty fault => exact (faultless run past fault).elim

end

private theorem countP_isLoad_le
    (first : h.Always fun e s => isLoad e = true → ∀ x ∈ s, isLoad x = false) :
    h.countP isLoad ≤ 1 := by
  induction h with
  | nil => exact Nat.zero_le 1
  | cons e h ih =>
    obtain ⟨now, before⟩ := History.always_cons.mp first
    by_cases he : isLoad e = true
    · have none : h.countP isLoad = 0 :=
        List.countP_eq_zero.mpr fun x hx => by simp [now he x hx]
      rw [List.countP_cons_of_pos he, none]
    · rw [List.countP_cons_of_neg he]
      exact ih before

/-- In every run in which the queries ask in time, one of them loads, and the others are answered from
the cache. -/
theorem queries_load_once [DecidableEq T] {B : CacheBackend} {H : B.Healthy}
    {I : RbatisCacheInterceptor} {X : Externals Bytes} {C : ValueCodec V} {calls : T → Call V}
    {state : B.State} {c : Config T (Op V) Op.Res (World B V) (Reply V)} (alike : Alike I X calls)
    (codec : X.RoundTrips) (blocking : I.policy.blocking = true) (empty : H.abs state = .empty)
    (run : Reaches (machine B V T I) (Prompt X C H) (initial I X C (selecting calls) state) c) :
    LoadedOnce C calls c := by
  have cold (k : String) : (H.abs state).content k = none := by rw [empty]; rfl
  obtain ⟨law, outcomes⟩ := reaches_misses alike blocking run
  have rules := reaches_lawful run
  have once : c.history.countP isLoad ≤ 1 := by
    refine countP_isLoad_le fun e s hs load x hx => ?_
    by_contra again
    obtain ⟨t, op, r⟩ := e
    obtain ⟨u, op', r'⟩ := x
    cases op with
    | databaseQuery call =>
      cases op' with
      | databaseQuery call' =>
        obtain ⟨p, hp⟩ := History.exists_suffix_of_mem hx
        obtain ⟨d, elected⟩ := elected_of_load alike codec blocking cold run hs
        obtain ⟨d', elected'⟩ := elected_of_load alike codec blocking cold run
          (hp.trans ((List.suffix_cons _ _).trans hs))
        obtain rfl := leader_unique alike codec blocking cold run elected elected'
        exact (law _ _ hs).2 call' r' (History.mem_own.mpr hx)
      | _ => exact again rfl
    | _ => cases load
  have answered (t : T) (reply : Reply V) (returned : c.tasks t = .ret reply) :
      (∃ result, ⟨t, .databaseQuery (calls t), result⟩ ∈ c.history) ∨
        ∃ v, reply = .queried (.ok v) ∧
          ⟨t, .leave (.before (calls t) (.query ())) (.ok (.return v)), ()⟩ ∈ c.history ∧
          ∃ u v₀, ⟨u, .databaseQuery (calls u), .ok v₀⟩ ∈ c.history ∧ Yields C v₀ v := by
    have outcome : Outcome (calls t) reply (c.history.own t) := outcomes.returned returned
    cases outcome with
    | @asked result performed => exact .inl ⟨result, History.mem_own.mp performed⟩
    | faulty fault => exact (faultless run (List.suffix_refl _) fault).elim
    | @cached v replied left =>
      have hm := History.mem_own.mp left
      obtain ⟨s, hs⟩ := History.exists_suffix_of_mem hm
      have past : s <:+ c.history := (List.suffix_cons _ _).trans hs
      obtain ⟨-, layers⟩ := reaches_layers (H := H.honest) (filedSlot_kept codec) empty run
      have found : Answered I X C (calls t) v (History.own s t) := rules _ _ hs
      obtain ⟨u, call, key, v₀, filed, yields⟩ := layers.answered codec past found
      have loaded := (loaded_of_entered (rules.suffix past) (Resolved.entered filed)).2
      exact .inr ⟨v, replied, hm, u, v₀, past.subset loaded, yields⟩
  refine ⟨once, fun t reply returned => once.antisymm ?_, answered⟩
  rcases answered t reply returned with ⟨result, hm⟩ | ⟨v, -, -, u, v₀, hm, -⟩
  · exact List.countP_pos_iff.mpr ⟨_, hm, rfl⟩
  · exact List.countP_pos_iff.mpr ⟨_, hm, rfl⟩

end

/-! ### Two queries -/

namespace Sample
open RbatisCache.Sample

/-- Two executors that ask for the same. -/
def twice (t : Fin 2) : Call UInt64 := call t.val "SELECT 1"

private theorem twice_alike : Alike interceptor externals twice where
  outside t := call_outside t.val "SELECT 1"
  cacheable _ := by
    change isCacheable interceptor externals "SELECT 1" = true
    decide +kernel
  sql _ _ := rfl
  args _ _ := rfl
  driver _ _ := rfl

/-- The environment over the ideal store. -/
def quiet : Choice ideal UInt64 := ⟨(), 5, 5, false, false, .ok 7, .ok ⟨1⟩⟩

/-- Whether an entry that is put outlasts the run. -/
def lasts : Op UInt64 → Bool
  | .backend (.put _ bytes _) =>
    match CacheEnvelope.decode externals bytes with
    | .ok envelope => decide (5 < envelope.expiresAtMs)
    | .error _ => true
  | _ => true

/-- The clock stands still, the database answers 7, and nobody's wait ends early. -/
def Steady : Restriction (Fin 2) (Op UInt64) Op.Res (Choice ideal UInt64) (World ideal UInt64) :=
  fun _ _ ch _ h => ch.now = 5 ∧ ch.queried = .ok 7 ∧ ch.elapsed = false ∧ ch.contended = false ∧
    ∀ e ∈ h, lasts e.op = true

instance (t : Fin 2) (op : Op UInt64) (ch : Choice ideal UInt64) (w : World ideal UInt64)
    (h : History UInt64 (Fin 2)) : Decidable (Steady t op ch w h) :=
  inferInstanceAs (Decidable (ch.now = 5 ∧ ch.queried = .ok 7 ∧ ch.elapsed = false ∧
    ch.contended = false ∧ ∀ e ∈ h, lasts e.op = true))

private theorem lossless_of_steady {t : Fin 2} {op : Op UInt64} {ch : Choice ideal UInt64}
    {w : World ideal UInt64} {h : History UInt64 (Fin 2)} (steady : Steady t op ch w h) :
    Lossless externals codec idealHealthy t op ch w h := by
  obtain ⟨now, queried, -, -, lasting⟩ := steady
  cases op with
  | backend o => exact ideal_keeps o w.backend
  | nowMs =>
    intro e he k bytes ttl hop envelope decoded
    have last := lasting e he
    rw [hop, lasts, decoded] at last
    rw [now]
    exact of_decide_eq_true last
  | databaseQuery => exact ⟨7, queried, fun payload _ => ⟨_, rfl⟩⟩
  | _ => trivial

abbrev first : Config (Fin 2) (Op UInt64) Op.Res (World ideal UInt64) (Reply UInt64) :=
  initial interceptor externals codec (selecting twice) Store.empty

end Sample

instance {V T : Type} [DecidableEq T] (t : T) (h : History V T) : Decidable (Early t h) :=
  inferInstanceAs (Decidable (h.Always fun e s => e.task = t → e.op.isGet = true →
    ∀ x ∈ s, x.op.isPut = false))

instance {B : CacheBackend} {V T : Type} [DecidableEq T] (t : T) (op : Op V) (ch : Choice B V)
    (w : World B V) (h : History V T) : Decidable (AsksInTime t op ch w h) :=
  inferInstanceAs (Decidable (op.candidate.isSome = true → Early t h →
    (∀ e ∈ h, e.op.isRemoval = false) ∧ asks (History.own h t) < 2))

/-- The second query waits for the first one and finds its entry. -/
theorem second_query_answered :
    ∃ c, Reaches (machine Sample.ideal UInt64 (Fin 2) Sample.interceptor)
        (Prompt Sample.externals Sample.codec Sample.idealHealthy) Sample.first c ∧
      (∀ t, ∃ reply, c.tasks t = .ret reply) ∧ LoadedOnce Sample.codec Sample.twice c := by
  obtain ⟨c, run, seen⟩ := play_observed
    (M := machine Sample.ideal UInt64 (Fin 2) Sample.interceptor)
    (A := fun t op ch w h => Sample.Steady t op ch w h ∧ AsksInTime t op ch w h)
    (c := Sample.first)
    ((List.replicate 7 (0 : Fin 2) ++ List.replicate 8 1 ++ List.replicate 12 0 ++
      List.replicate 11 1).map (·, Sample.quiet))
    (fun c => decide (c.returned 0 = some (.queried (.ok 7))) &&
      decide (c.returned 1 = some (.queried (.ok 7)))) (by decide +kernel)
  simp only [Bool.and_eq_true, decide_eq_true_eq] at seen
  have prompt : Reaches (machine Sample.ideal UInt64 (Fin 2) Sample.interceptor)
      (Prompt Sample.externals Sample.codec Sample.idealHealthy) Sample.first c :=
    run.weaken fun _ _ _ _ _ ha => ⟨Sample.lossless_of_steady ha.1, ha.2⟩
  refine ⟨c, prompt, fun t => ?_,
    queries_load_once Sample.twice_alike Sample.externals_roundTrips rfl rfl prompt⟩
  match t with
  | 0 => exact ⟨_, Config.returned_eq_some.mp seen.1⟩
  | 1 => exact ⟨_, Config.returned_eq_some.mp seen.2⟩

/-- The second query is woken when the first one has completed its load and has not stored the
entry: it misses again, and is elected. -/
theorem woken_query_loads_again :
    ∃ c, Reaches (machine Sample.ideal UInt64 (Fin 2) Sample.interceptor)
        (fun t op ch w h => Lossless Sample.externals Sample.codec Sample.idealHealthy t op ch w h ∧
          ch.elapsed = false ∧ ch.contended = false) Sample.first c ∧
      Alike Sample.interceptor Sample.externals Sample.twice ∧
      Function.Injective (fun t => (Sample.twice t).rb.id) ∧
      Sample.interceptor.policy.blocking = true ∧
      (toLeBytes 7).length ≤ Sample.interceptor.policy.maxValueSize ∧
      (∀ t, ∃ reply, c.tasks t = .ret reply) ∧ ¬ LoadedOnce Sample.codec Sample.twice c := by
  obtain ⟨c, run, seen⟩ := play_observed
    (M := machine Sample.ideal UInt64 (Fin 2) Sample.interceptor) (A := Sample.Steady)
    (c := Sample.first)
    ((List.replicate 8 (0 : Fin 2) ++ List.replicate 8 1 ++ List.replicate 4 0 ++
      List.replicate 8 1 ++ List.replicate 7 0 ++ List.replicate 11 1).map (·, Sample.quiet))
    (fun c => decide (c.history.countP isLoad = 2) &&
      decide (c.returned 0 = some (.queried (.ok 7))) &&
      decide (c.returned 1 = some (.queried (.ok 7)))) (by decide +kernel)
  simp only [Bool.and_eq_true, decide_eq_true_eq] at seen
  refine ⟨c, run.weaken fun _ _ _ _ _ ha => ⟨Sample.lossless_of_steady ha, ha.2.2.1, ha.2.2.2.1⟩,
    Sample.twice_alike, ?_, rfl, by decide, fun t => ?_, fun loaded => ?_⟩
  · intro t u same
    exact Fin.ext (Int.ofNat.inj same)
  · match t with
    | 0 => exact ⟨_, Config.returned_eq_some.mp seen.1.2⟩
    | 1 => exact ⟨_, Config.returned_eq_some.mp seen.2⟩
  · have once := loaded.once
    rw [seen.1.1] at once
    omega

end RbatisCache.RbatisInterceptor
