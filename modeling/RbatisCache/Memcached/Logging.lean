import Mathlib.Algebra.Order.BigOperators.Group.Finset
import RbatisCache.Interleaving.Counting
import RbatisCache.Interleaving.Decoration
import RbatisCache.Memcached.Linearizability

/-! The decorator that logs the hit ratio (`logging_memcached_cache.rs`). Its clients see what they would
see without it, however their calls overlap; its two counters count the answered reads. -/
namespace RbatisCache.Memcached
open Interleaving
open Interleaving.Prog (perform bind_eq perform_bind pure_eq ret_bind)

/-- The accesses to the two counters. -/
inductive RatioOp where
  | addRequest
  | addHit
  | loadRequests
  | loadHits
  deriving DecidableEq

@[reducible] def RatioOp.Res : RatioOp → Type
  | .addRequest | .addHit => Unit
  | .loadRequests | .loadHits => UInt64

structure Ratio where
  requests : UInt64 := 0
  hits : UInt64 := 0
  deriving DecidableEq

def Ratio.perform : (op : RatioOp) → Ratio → op.Res × Ratio
  | .addRequest, c => ((), { c with requests := c.requests + 1 })
  | .addHit, c => ((), { c with hits := c.hits + 1 })
  | .loadRequests, c => (c.requests, c)
  | .loadHits, c => (c.hits, c)

/-- A program that sends messages to the server and counts. -/
abbrev Logged (α : Type) := Prog (Message ⊕ RatioOp) (Both Message.Res RatioOp.Res) α

/-- A logger that does not take debug messages does not compute what they say, either. -/
structure LoggingMemcachedCache where
  delegate : MemcachedCacheBackend
  debug : Bool

namespace LoggingMemcachedCache
variable (self : LoggingMemcachedCache)

/-- The hits and the requests that are divided, if there are any requests. -/
def hitRatio : Logged (Option (UInt64 × UInt64)) := do
  let requests ← perform (Sum.inr RatioOp.loadRequests)
  if requests = 0 then
    return none
  else
    let hits ← perform (Sum.inr RatioOp.loadHits)
    return some (hits, requests)

def recordRequest (hit : Bool) : Logged Unit := do
  let _ ← perform (Sum.inr RatioOp.addRequest)
  let _ ← if hit then perform (Sum.inr RatioOp.addHit) else pure ()
  let _ ← if self.debug then hitRatio else pure none
  return ()

def get (key : String) : Logged (Except CacheError (Option Bytes)) := do
  match ← (self.delegate.get key).plain with
  | .error e => return .error e
  | .ok value =>
    self.recordRequest value.isSome
    return .ok value

/-- A call, with what it is answered; only `get` counts. -/
def program : BackendOp → Logged (Sigma BackendOp.Res)
  | .get key => do return ⟨.get key, ← self.get key⟩
  | .put key value ttl => (self.delegate.program (.put key value ttl)).plain
  | .generation n => (self.delegate.program (.generation n)).plain
  | .bumpGeneration n => (self.delegate.program (.bumpGeneration n)).plain

end LoggingMemcachedCache

def loggedNetwork (T : Type) (S : Server) :
    Machine T (Message ⊕ RatioOp) (Both Message.Res RatioOp.Res) (Delivery S) (Network T S × Ratio) :=
  (network T S).beside Ratio.perform

/-- Any number of clients that share a decorator. -/
def loggedClients {T : Type} {S : Server} (self : LoggingMemcachedCache) (calls : T → BackendOp)
    (server : S.State) : Config T (Message ⊕ RatioOp) (Both Message.Res RatioOp.Res)
      (Network T S × Ratio) (Sigma BackendOp.Res) :=
  ⟨(⟨server, []⟩, {}), [], fun t => self.program (calls t)⟩

/-! ### What the decorator leaves alone -/

section
variable {self : LoggingMemcachedCache}

namespace LoggingMemcachedCache

private theorem only_hitRatio :
    (hitRatio : Logged (Option (UInt64 × UInt64))).Only fun op => op.isRight := by
  simp only [hitRatio, bind_eq, perform_bind, pure_eq]
  refine ⟨rfl, fun requests => ?_⟩
  dsimp only
  split_ifs
  · trivial
  · exact ⟨rfl, fun _ => trivial⟩

private theorem only_recordRequest (hit : Bool) :
    (self.recordRequest hit).Only fun op => op.isRight := by
  have logged : (if self.debug = true then hitRatio.bind fun _ => .ret () else .ret () : Logged Unit).Only
      fun op => op.isRight := by
    split_ifs
    · exact only_hitRatio.bind fun _ => trivial
    · trivial
  simp only [recordRequest, bind_eq, perform_bind, pure_eq, ret_bind]
  refine ⟨rfl, fun _ => ?_⟩
  cases hit with
  | true => exact ⟨rfl, fun _ => logged⟩
  | false => exact logged

private theorem decorates_get (key : String) : (self.get key).Decorates (self.delegate.get key) := by
  rw [← Prog.bind_ret (self.delegate.get key)]
  refine (Prog.decorates_plain _).bind fun reply => ?_
  cases reply with
  | error e => exact .ret _
  | ok value => exact .after (only_recordRequest _) fun _ => .ret _

private theorem decorates_program (op : BackendOp) :
    (self.program op).Decorates (self.delegate.program op) := by
  cases op with
  | get key => exact (decorates_get key).bind fun reply => .ret _
  | put key value ttl => exact Prog.decorates_plain _
  | generation n => exact Prog.decorates_plain _
  | bumpGeneration n => exact Prog.decorates_plain _

end LoggingMemcachedCache

variable {T : Type} [DecidableEq T] {calls : T → BackendOp} {S : Server}
variable {view : S.State → String → Option Item} {server : S.State}

/-- Over any server that does what is documented: calls that are logged take effect as calls that are not,
one after the other and each at one moment between its begin and its end. -/
theorem logged_clients_linearize (documented : S.Documented view)
    (hash : Function.Injective self.delegate.blake3)
    (codec : self.delegate.wrapper.compression = true → self.delegate.transcoder.RoundTrips)
    (numbered : Items.Numbered self.delegate (view server))
    {d : Config T (Message ⊕ RatioOp) (Both Message.Res RatioOp.Res) (Network T S × Ratio)
      (Sigma BackendOp.Res)}
    (run : Reaches (loggedNetwork T S) (Heard view).beside (loggedClients self calls server) d) :
    ∃ order, Linearizes Remote.Serves Remote.Drifts ⟨Items.store self.delegate (view server), []⟩
      (d.world.1.remote view self.delegate calls) d.history d.returned order := by
  have start : (loggedClients self calls server).Decorates (clients self.delegate calls server) :=
    ⟨rfl, rfl, fun t => LoggingMemcachedCache.decorates_program (calls t)⟩
  obtain ⟨p, plain, same⟩ := run.plain start
  obtain ⟨order, linearizes⟩ := linearizes_clients documented hash codec numbered plain
  rw [same.world] at linearizes
  exact ⟨order, linearizes.decorated same⟩

end

/-! ### What the counters count -/

/-- What one of the clients has done. -/
abbrev LoggedDone := List (Sigma (Both Message.Res RatioOp.Res))

def isRequest : Message ⊕ RatioOp → Bool
  | .inr .addRequest => true
  | _ => false

def isHit : Message ⊕ RatioOp → Bool
  | .inr .addHit => true
  | _ => false

/-- A read that did not fail. -/
def answered : Sigma BackendOp.Res → Bool
  | ⟨.get _, .ok _⟩ => true
  | _ => false

/-- A read that found something. -/
def found : Sigma BackendOp.Res → Bool
  | ⟨.get _, .ok (some _)⟩ => true
  | _ => false

/-- A call counts its request once, and then at most one hit. -/
def countsOnce (done : LoggedDone) : Message ⊕ RatioOp → Prop
  | .inr .addRequest => done.countP (isRequest ·.1) = 0
  | .inr .addHit => done.countP (isRequest ·.1) = 1 ∧ done.countP (isHit ·.1) = 0
  | _ => True

/-- What a call has tallied when it is answered. -/
structure Tallied (reply : Sigma BackendOp.Res) (done : LoggedDone) : Prop where
  requests : done.countP (isRequest ·.1) = (answered reply).toNat
  hits : done.countP (isHit ·.1) = (found reply).toNat

section
variable {self : LoggingMemcachedCache} {done : LoggedDone} {n m : Nat}

/-- So many requests and so many hits. -/
def Counts (n m : Nat) (done : LoggedDone) : Prop :=
  done.countP (isRequest ·.1) = n ∧ done.countP (isHit ·.1) = m

theorem Counts.other (counts : Counts n m done) {op : Message ⊕ RatioOp}
    (neither : isRequest op = false ∧ isHit op = false) (r : Both Message.Res RatioOp.Res op) :
    Counts n m (⟨op, r⟩ :: done) := by
  refine ⟨?_, ?_⟩
  · rw [countP_cons_toNat, counts.1, neither.1]
    rfl
  · rw [countP_cons_toNat, counts.2, neither.2]
    rfl

/-- A plain program counts nothing. -/
theorem obeys_plain {α : Type} {P : α → Prop} {p : Prog Message Message.Res α}
    {before : List (Sigma Message.Res)} (ends : p.Ensures (fun a _ => P a) before)
    (counts : Counts n m done) :
    (p.plain : Logged α).Obeys countsOnce (fun a after => Counts n m after ∧ P a) done := by
  induction p generalizing done before with
  | ret a => exact ⟨counts, ends⟩
  | call op next ih => exact ⟨trivial, fun r => ih r (ends.2 r) (counts.other ⟨rfl, rfl⟩ r)⟩

private theorem obeys_hitRatio (counts : Counts n m done) :
    (LoggingMemcachedCache.hitRatio).Obeys countsOnce (fun _ after => Counts n m after) done := by
  simp only [LoggingMemcachedCache.hitRatio, bind_eq, perform_bind, pure_eq]
  refine ⟨trivial, fun requests => ?_⟩
  dsimp only
  split_ifs
  · exact counts.other ⟨rfl, rfl⟩ requests
  · exact ⟨trivial, fun hits => (counts.other ⟨rfl, rfl⟩ requests).other ⟨rfl, rfl⟩ hits⟩

private theorem obeys_recordRequest (hit : Bool) (counts : Counts 0 0 done) :
    (self.recordRequest hit).Obeys countsOnce (fun _ after => Counts 1 hit.toNat after) done := by
  have logged {n m : Nat} {done : LoggedDone} (counts : Counts n m done) :
      (if self.debug = true then LoggingMemcachedCache.hitRatio.bind fun _ => .ret () else .ret () :
        Logged Unit).Obeys countsOnce (fun _ after => Counts n m after) done := by
    split_ifs
    · exact (obeys_hitRatio counts).andThen fun _ _ after _ => after
    · exact counts
  have requested (r : Unit) : Counts 1 0 (⟨.inr .addRequest, r⟩ :: done) := by
    refine ⟨?_, ?_⟩
    · rw [countP_cons_toNat, counts.1]
      rfl
    · rw [countP_cons_toNat, counts.2]
      rfl
  simp only [LoggingMemcachedCache.recordRequest, bind_eq, perform_bind, pure_eq, ret_bind]
  refine ⟨counts.1, fun r => ?_⟩
  cases hit with
  | false => exact logged (requested r)
  | true =>
    refine ⟨requested r, fun r' => logged ⟨?_, ?_⟩⟩
    · rw [countP_cons_toNat, (requested r).1]
      rfl
    · rw [countP_cons_toNat, (requested r).2]
      rfl

/-- What is answered is an answer to the call. -/
theorem ensures_program (client : MemcachedCacheBackend) (op : BackendOp) :
    (client.program op).Ensures (fun reply _ => reply.1 = op) [] := by
  cases op <;> exact Prog.ensures_true.andThen fun _ _ _ _ => rfl

private theorem obeys_logged (op : BackendOp) : (self.program op).Obeys countsOnce Tallied [] := by
  have nothing : Counts 0 0 [] := ⟨rfl, rfl⟩
  have plain (op : BackendOp) (silent : ∀ r, answered ⟨op, r⟩ = false ∧ found ⟨op, r⟩ = false) :
      ((self.delegate.program op).plain : Logged (Sigma BackendOp.Res)).Obeys countsOnce Tallied [] := by
    refine (obeys_plain (ensures_program self.delegate op) nothing).mono fun reply after counts => ?_
    obtain ⟨call, r⟩ := reply
    obtain ⟨counts, rfl⟩ := counts
    exact ⟨by rw [counts.1, (silent r).1]; rfl, by rw [counts.2, (silent r).2]; rfl⟩
  cases op with
  | get key =>
    have ends : (self.delegate.get key).Ensures (fun _ _ => True) [] := Prog.ensures_true
    have read := obeys_plain (P := fun _ => True) ends nothing
    have tallied : (self.get key).Obeys countsOnce
        (fun reply after => Tallied ⟨.get key, reply⟩ after) [] := by
      refine read.andThen fun reply after counts _ => ?_
      cases reply with
      | error e => exact ⟨counts.1.1, counts.1.2⟩
      | ok value =>
        refine (obeys_recordRequest value.isSome counts.1).andThen fun _ after counts _ => ?_
        cases value with
        | none => exact ⟨counts.1, counts.2⟩
        | some value => exact ⟨counts.1, counts.2⟩
    exact tallied.andThen fun reply after tallied _ => tallied
  | put key value ttl => exact plain _ fun r => ⟨rfl, rfl⟩
  | generation n => exact plain _ fun r => ⟨rfl, rfl⟩
  | bumpGeneration n => exact plain _ fun r => ⟨rfl, rfl⟩

end

section
variable {T : Type} [DecidableEq T] {self : LoggingMemcachedCache} {calls : T → BackendOp}
variable {S : Server} {server : S.State}
variable {A : Restriction T (Message ⊕ RatioOp) (Both Message.Res RatioOp.Res) (Delivery S)
  (Network T S × Ratio)}

/-- What has been done on the server and on the counters. -/
abbrev LoggedHistory (T : Type) :=
  Interleaving.History T (Message ⊕ RatioOp) (Both Message.Res RatioOp.Res)

/-- The counters have 64 bits. -/
structure Tally (w : Network T S × Ratio) (h : LoggedHistory T) : Prop where
  requests : w.2.requests = .ofNat (h.countP (isRequest ·.op))
  hits : w.2.hits = .ofNat (h.countP (isHit ·.op))
  once : ∀ t, (h.own t).countP (isRequest ·.1) ≤ 1
  after : ∀ t, (h.own t).countP (isHit ·.1) ≤ (h.own t).countP (isRequest ·.1)

omit [DecidableEq T] in
/-- Only the additions change the counters. -/
theorem ratio_of_performed {t : T} {op : Message ⊕ RatioOp} {ch : Delivery S}
    {w u : Network T S × Ratio} {r : Both Message.Res RatioOp.Res op}
    (performed : (loggedNetwork T S).perform t op ch w = some (r, u)) :
    u.2.requests = w.2.requests + .ofNat (isRequest op).toNat ∧
    u.2.hits = w.2.hits + .ofNat (isHit op).toNat := by
  cases op with
  | inl m =>
    change ((network T S).perform t m ch w.1).map (fun out => (out.1, (out.2, w.2))) = some (r, u) at performed
    obtain ⟨out, -, eq⟩ := Option.map_eq_some_iff.mp performed
    obtain ⟨-, rfl⟩ := Prod.mk.inj eq
    exact ⟨(UInt64.add_zero _).symm, (UInt64.add_zero _).symm⟩
  | inr op =>
    obtain ⟨-, rfl⟩ := Prod.mk.inj (Option.some.inj performed)
    cases op with
    | addRequest => exact ⟨rfl, (UInt64.add_zero _).symm⟩
    | addHit => exact ⟨(UInt64.add_zero _).symm, rfl⟩
    | loadRequests => exact ⟨(UInt64.add_zero _).symm, (UInt64.add_zero _).symm⟩
    | loadHits => exact ⟨(UInt64.add_zero _).symm, (UInt64.add_zero _).symm⟩

private theorem countsOnce_cons {done : LoggedDone} {op : Message ⊕ RatioOp}
    (allowed : countsOnce done op)
    (once : done.countP (isRequest ·.1) ≤ 1)
    (after : done.countP (isHit ·.1) ≤ done.countP (isRequest ·.1))
    (r : Both Message.Res RatioOp.Res op) :
    List.countP (isRequest ·.1) (⟨op, r⟩ :: done) ≤ 1 ∧
    List.countP (isHit ·.1) (⟨op, r⟩ :: done) ≤ List.countP (isRequest ·.1) (⟨op, r⟩ :: done) := by
  rw [countP_cons_toNat, countP_cons_toNat]
  cases op with
  | inl m => exact ⟨once, after⟩
  | inr op =>
    cases op with
    | addRequest =>
      have first : done.countP (isRequest ·.1) = 0 := allowed
      change List.countP _ done + 1 ≤ 1 ∧ List.countP _ done + 0 ≤ List.countP _ done + 1
      omega
    | addHit =>
      obtain ⟨requested, first⟩ := allowed
      change List.countP _ done + 0 ≤ 1 ∧ List.countP _ done + 1 ≤ List.countP _ done + 0
      omega
    | loadRequests => exact ⟨once, after⟩
    | loadHits => exact ⟨once, after⟩

private theorem tally_preserved : Preserves (loggedNetwork T S) A (fun _ => countsOnce) Tally := by
  intro t op ch w h r u tally allowed _ performed
  obtain ⟨requests, hits⟩ := ratio_of_performed performed
  refine ⟨?_, ?_, fun s => ?_, fun s => ?_⟩
  · rw [requests, tally.requests, countP_cons_toNat, UInt64.ofNat_add]
  · rw [hits, tally.hits, countP_cons_toNat, UInt64.ofNat_add]
  · by_cases same : s = t
    · subst same
      rw [History.own_cons_self]
      exact (countsOnce_cons allowed (tally.once s) (tally.after s) r).1
    · rw [History.own_cons_ne (Ne.symm same)]
      exact tally.once s
  · by_cases same : s = t
    · subst same
      rw [History.own_cons_self]
      exact (countsOnce_cons allowed (tally.once s) (tally.after s) r).2
    · rw [History.own_cons_ne (Ne.symm same)]
      exact tally.after s

private theorem tally_initial : Tally (loggedClients self calls server).world
    (loggedClients self calls server).history :=
  ⟨rfl, rfl, fun _ => Nat.zero_le 1, fun _ => Nat.le_refl 0⟩

/-- So many calls that were answered as told. -/
def told [Fintype T] (p : Sigma BackendOp.Res → Bool) (replies : T → Option (Sigma BackendOp.Res)) : Nat :=
  (Finset.univ.filter fun t => (replies t).any p = true).card

/-- Whatever the server does and however the calls overlap: when all have returned, the requests are the
reads that did not fail and the hits those that found something; and never are there more hits than
requests, as long as there are fewer calls than the counters can count. -/
theorem ratio_tells [Fintype T]
    {d : Config T (Message ⊕ RatioOp) (Both Message.Res RatioOp.Res) (Network T S × Ratio)
      (Sigma BackendOp.Res)}
    (run : Reaches (loggedNetwork T S) A (loggedClients self calls server) d) :
    ((∀ t, d.returned t ≠ none) →
      d.world.2 = ⟨.ofNat (told answered d.returned), .ofNat (told found d.returned)⟩) ∧
    (Fintype.card T < 2 ^ 64 → d.world.2.hits ≤ d.world.2.requests) := by
  have obeys : (loggedClients self calls server).Obeys (fun _ => countsOnce) (fun _ => Tallied) :=
    fun t => obeys_logged (calls t)
  obtain ⟨tally, ends⟩ := run.preserves tally_preserved obeys tally_initial
  have requests : d.world.2.requests = _ :=
    tally.requests.trans (congrArg UInt64.ofNat (History.countP_eq_sum_own (isRequest ·.1) d.history))
  have hits : d.world.2.hits = _ :=
    tally.hits.trans (congrArg UInt64.ofNat (History.countP_eq_sum_own (isHit ·.1) d.history))
  constructor
  · intro all
    have replied {p : Sigma BackendOp.Res → Bool} {q : Message ⊕ RatioOp → Bool}
        (each : ∀ reply done, Tallied reply done → done.countP (q ·.1) = (p reply).toNat) :
        ∑ t, (d.history.own t).countP (q ·.1) = told p d.returned := by
      rw [told, Finset.card_filter]
      refine Finset.sum_congr rfl fun t _ => ?_
      obtain ⟨reply, hreply⟩ := Option.ne_none_iff_exists'.mp (all t)
      rw [hreply, each reply _ (ends.returned (Config.returned_eq_some.mp hreply)), Option.any_some]
      cases p reply <;> rfl
    have requested := replied fun reply done (tallied : Tallied reply done) => tallied.requests
    have hit := replied fun reply done (tallied : Tallied reply done) => tallied.hits
    rw [requested] at requests
    rw [hit] at hits
    exact congrArg₂ Ratio.mk requests hits
  · intro few
    have less : ∑ t, (d.history.own t).countP (isHit ·.1) ≤
        ∑ t, (d.history.own t).countP (isRequest ·.1) := Finset.sum_le_sum fun t _ => tally.after t
    have fits : ∑ t, (d.history.own t).countP (isRequest ·.1) ≤ Fintype.card T * 1 :=
      Finset.sum_le_card_nsmul _ _ 1 fun t _ => tally.once t
    rw [hits, requests, UInt64.le_iff_toNat_le, UInt64.toNat_ofNat', UInt64.toNat_ofNat',
      Nat.mod_eq_of_lt (by omega), Nat.mod_eq_of_lt (by omega)]
    exact less

end

/-! ### Runs -/

namespace Sample

def logging : LoggingMemcachedCache := ⟨client, true⟩

/-- The second read is answered while the first one is at its log message. -/
def readInTheMiddle : List (Fin 5 × Delivery Items.server) :=
  [0, 1, 1, 1, 1, 2, 2, 2, 2, 2, 1, 3, 3, 4, 4].map fun t => (t, plain)

end Sample

/-- Two logged reads and a logged put. The first read has loaded one request before the second one counts,
and two hits after: it logs a ratio above one. -/
theorem logged_reads_linearize : ∃ d : Config (Fin 5) (Message ⊕ RatioOp)
      (Both Message.Res RatioOp.Res) (Network (Fin 5) Items.server × Ratio) (Sigma BackendOp.Res),
    d.returned 1 = some ⟨.get "k", .ok (some [1])⟩ ∧
    (d.history.any fun | ⟨1, .inr .loadRequests, n⟩ => n == 1 | _ => false) = true ∧
    (d.history.any fun | ⟨1, .inr .loadHits, n⟩ => n == 2 | _ => false) = true ∧
    ∃ order, Linearizes Remote.Serves Remote.Drifts
      ⟨Items.store Sample.client (Items.view Sample.nothing), []⟩
      (d.world.1.remote Items.view Sample.client Sample.calls) d.history d.returned order := by
  obtain ⟨d, run, seen⟩ := play_observed (M := loggedNetwork (Fin 5) Items.server)
    (A := (Heard Items.view).beside) (c := loggedClients Sample.logging Sample.calls Sample.nothing)
    Sample.readInTheMiddle
    (fun d => decide (d.returned 1 = some ⟨.get "k", .ok (some [1])⟩) &&
      (d.history.any fun | ⟨1, .inr .loadRequests, n⟩ => n == 1 | _ => false) &&
      (d.history.any fun | ⟨1, .inr .loadHits, n⟩ => n == 2 | _ => false))
    (by decide +kernel)
  simp only [Bool.and_eq_true, decide_eq_true_eq] at seen
  exact ⟨d, seen.1.1, seen.1.2, seen.2, logged_clients_linearize Items.documented
    RbatisCache.Sample.hash_injective (fun _ => Sample.transcoder_roundTrips) Sample.numbered run⟩

/-- The same calls, when all have returned. -/
theorem logged_reads_counted : ∃ d : Config (Fin 5) (Message ⊕ RatioOp)
      (Both Message.Res RatioOp.Res) (Network (Fin 5) Items.server × Ratio) (Sigma BackendOp.Res),
    (∀ t, d.returned t ≠ none) ∧ d.world.2 = ⟨2, 2⟩ ∧
    d.world.2 = ⟨.ofNat (told answered d.returned), .ofNat (told found d.returned)⟩ ∧
    d.world.2.hits ≤ d.world.2.requests := by
  obtain ⟨d, run, seen⟩ := play_observed (M := loggedNetwork (Fin 5) Items.server)
    (A := Restriction.none) (c := loggedClients Sample.logging Sample.calls Sample.nothing)
    Sample.readInTheMiddle
    (fun d => decide ((∀ t, d.returned t ≠ none) ∧ d.world.2 = ⟨2, 2⟩))
    (by decide +kernel)
  obtain ⟨all, counters⟩ := of_decide_eq_true seen
  obtain ⟨counts, less⟩ := ratio_tells run
  exact ⟨d, all, counters, counts all, less (by decide)⟩

end RbatisCache.Memcached
