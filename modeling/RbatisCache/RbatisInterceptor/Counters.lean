import Mathlib.Algebra.Order.BigOperators.Group.Finset
import RbatisCache.Interleaving.Counting
import RbatisCache.RbatisInterceptor.Brackets
import RbatisCache.RbatisInterceptor.Sample

/-! The counters of the executor integration, against what its hook calls have done. They say nothing
about the listener, which has no counters, nor about values that come out of transaction buffers. -/
namespace RbatisCache.RbatisInterceptor
open Interleaving
open Interleaving.Prog (perform bind_eq perform_bind call_bind pure_eq Ensures)
open RbatisCacheInterceptor

section
variable {V : Type}

/-! ### What is counted, and what should be -/

@[simp] def recorded (m : Metric) : Sigma (Op.Res (V := V)) → Bool
  | ⟨.record n, _⟩ => decide (n = m)
  | _ => false

/-- A `before` that answers its query. -/
@[simp] def answering : Sigma (Op.Res (V := V)) → Bool
  | ⟨.leave _ (.ok (.return _)), _⟩ => true
  | _ => false

/-- A value out of a transaction buffer. -/
@[simp] def buffered : Sigma (Op.Res (V := V)) → Bool
  | ⟨.pendingGet _ _, some _⟩ => true
  | _ => false

/-- Every lookup begins in the first-level cache. -/
@[simp] def looking : Sigma (Op.Res (V := V)) → Bool
  | ⟨.l1Lookup _, _⟩ => true
  | _ => false

@[simp] def failedGet : Sigma (Op.Res (V := V)) → Bool
  | ⟨.backend (.get _), .error _⟩ => true
  | _ => false

variable (X : Externals Bytes) (C : ValueCodec V) (I : RbatisCacheInterceptor)

/-- An envelope whose payload is not a value. -/
@[simp] def unreadable : Sigma (Op.Res (V := V)) → Bool
  | ⟨.backend (.get _), .ok (some bytes)⟩ =>
    (CacheEnvelope.decode X bytes).toOption.any fun envelope => !(C.fromSlice envelope.payload).isOk
  | _ => false

/-- A failure of the backend that should be counted: in the fail-closed mode that of a generation is
not. -/
@[simp] def failing : Sigma (Op.Res (V := V)) → Bool
  | ⟨.backend (.generation _), .error _⟩ => decide (I.policy.failureMode = .failOpen)
  | ⟨.backend (.get _), .error _⟩ | ⟨.backend (.put _ _ _), .error _⟩
  | ⟨.backend (.bumpGeneration _), .error _⟩ => true
  | _ => false

@[simp] def invalidating : Sigma (Op.Res (V := V)) → Bool
  | ⟨.backend (.bumpGeneration _), .ok _⟩ => true
  | _ => false

/-- What a task has done without having counted it, and the values that it has counted without having
returned them. -/
structure Owed where
  values : Nat := 0
  lookups : Nat := 0
  failures : Nat := 0
  bumps : Nat := 0

/-- The books of a task. -/
structure Booked (owed : Owed) (done : Done V) : Prop where
  hits : done.countP (recorded .hit) + done.countP buffered = done.countP answering + owed.values
  covered : done.countP (recorded .hit) + done.countP (recorded .miss) + done.countP failedGet +
    owed.lookups ≤ done.countP looking
  covers : done.countP looking ≤ done.countP (recorded .hit) + done.countP (recorded .miss) +
    done.countP failedGet + owed.lookups + done.countP (unreadable X C)
  failures : done.countP (recorded .backendError) + owed.failures = done.countP (failing I)
  bumps : done.countP (recorded .invalidation) + owed.bumps = done.countP invalidating
  loads : done.countP (recorded .load) = 0
  bypasses : done.countP (recorded .bypass) = 0

/-- What an event does to the books. -/
structure Entry (e : Sigma (Op.Res (V := V))) (owed later : Owed) : Prop where
  hits : (recorded .hit e).toNat + (buffered e).toNat + owed.values =
    (answering e).toNat + later.values
  covered : (recorded .hit e).toNat + (recorded .miss e).toNat + (failedGet e).toNat + later.lookups ≤
    (looking e).toNat + owed.lookups
  covers : (looking e).toNat + owed.lookups ≤ (recorded .hit e).toNat + (recorded .miss e).toNat +
    (failedGet e).toNat + later.lookups + (unreadable X C e).toNat
  failures : (recorded .backendError e).toNat + later.failures = (failing I e).toNat + owed.failures
  bumps : (recorded .invalidation e).toNat + later.bumps = (invalidating e).toNat + owed.bumps
  loads : recorded .load e = false
  bypasses : recorded .bypass e = false

variable {X C I} {owed later : Owed} {done : Done V}

private theorem booked_nil : Booked X C I {} [] := by
  constructor <;> simp

theorem Booked.cons {e : Sigma (Op.Res (V := V))} (booked : Booked X C I owed done)
    (entry : Entry X C I e owed later) : Booked X C I later (e :: done) := by
  obtain ⟨hits, covered, covers, failures, bumps, loads, bypasses⟩ := booked
  constructor
  all_goals simp only [countP_cons_toNat]
  case hits =>
    have := entry.hits
    omega
  case covered =>
    have := entry.covered
    omega
  case covers =>
    have := entry.covers
    omega
  case failures =>
    have := entry.failures
    omega
  case bumps =>
    have := entry.bumps
    omega
  case loads =>
    rw [entry.loads, loads]
    rfl
  case bypasses =>
    rw [entry.bypasses, bypasses]
    rfl

/-- An operation that is in no book. -/
def Op.Unbooked : Op V → Prop
  | .leave _ _ | .record _ | .pendingGet _ _ | .l1Lookup _ | .backend _ => False
  | _ => True

namespace Entry
variable {v l f b : Nat}

private theorem unbooked (op : Op V) (quiet : op.Unbooked) (r : op.Res) :
    Entry X C I ⟨op, r⟩ owed owed := by
  cases op with
  | leave | record | pendingGet | l1Lookup | backend => cases quiet
  | _ => constructor <;> simp

private theorem look (executorId : Int) (r : L1Lookup V) :
    Entry X C I ⟨.l1Lookup executorId, r⟩ ⟨v, l, f, b⟩ ⟨v, l + 1, f, b⟩ := by
  constructor
  all_goals simp
  all_goals omega

private theorem hit : Entry X C I ⟨.record .hit, ()⟩ ⟨v, l + 1, f, b⟩ ⟨v + 1, l, f, b⟩ := by
  constructor
  all_goals simp
  all_goals omega

private theorem miss : Entry X C I ⟨.record .miss, ()⟩ ⟨v, l + 1, f, b⟩ ⟨v, l, f, b⟩ := by
  constructor
  all_goals simp
  all_goals omega

private theorem error : Entry X C I ⟨.record .backendError, ()⟩ ⟨v, l, f + 1, b⟩ ⟨v, l, f, b⟩ := by
  constructor
  all_goals simp
  all_goals omega

private theorem invalidation :
    Entry X C I ⟨.record .invalidation, ()⟩ ⟨v, l, f, b + 1⟩ ⟨v, l, f, b⟩ := by
  constructor
  all_goals simp
  all_goals omega

private theorem got (key : String) (r : Option Bytes) :
    Entry X C I ⟨.backend (.get key), .ok r⟩ owed owed := by
  constructor <;> cases r <;> simp

private theorem unread {bytes : Bytes} {envelope : CacheEnvelope Bytes} {e : String} (key : String)
    (decoded : CacheEnvelope.decode X bytes = .ok envelope)
    (unread : C.fromSlice envelope.payload = .error e) :
    Entry X C I ⟨.backend (.get key), .ok (some bytes)⟩ ⟨v, l + 1, f, b⟩ ⟨v, l, f, b⟩ := by
  constructor
  all_goals simp [decoded, unread, Except.toOption, Except.isOk, Except.toBool]

private theorem getFails (key : String) (e : CacheError) :
    Entry X C I ⟨.backend (.get key), .error e⟩ ⟨v, l + 1, f, b⟩ ⟨v, l, f + 1, b⟩ := by
  constructor
  all_goals simp
  all_goals omega

private theorem read (nameSpace : String) (g : UInt64) :
    Entry X C I ⟨.backend (.generation nameSpace), .ok g⟩ owed owed := by
  constructor <;> simp

private theorem readFails (nameSpace : String) (e : CacheError)
    (mode : I.policy.failureMode = .failOpen) :
    Entry X C I ⟨.backend (.generation nameSpace), .error e⟩ ⟨v, l, f, b⟩ ⟨v, l, f + 1, b⟩ := by
  constructor
  all_goals simp [mode]
  omega

private theorem readRefused (nameSpace : String) (e : CacheError)
    (mode : I.policy.failureMode = .failClosed) :
    Entry X C I ⟨.backend (.generation nameSpace), .error e⟩ owed owed := by
  constructor <;> simp [mode]

private theorem put (key : String) (bytes : Bytes) (ttl : Duration) :
    Entry X C I ⟨.backend (.put key bytes ttl), .ok ()⟩ owed owed := by
  constructor <;> simp

private theorem putFails (key : String) (bytes : Bytes) (ttl : Duration) (e : CacheError) :
    Entry X C I ⟨.backend (.put key bytes ttl), .error e⟩ ⟨v, l, f, b⟩ ⟨v, l, f + 1, b⟩ := by
  constructor
  all_goals simp
  all_goals omega

private theorem bump (nameSpace : String) (g : UInt64) :
    Entry X C I ⟨.backend (.bumpGeneration nameSpace), .ok g⟩ ⟨v, l, f, b⟩ ⟨v, l, f, b + 1⟩ := by
  constructor
  all_goals simp
  all_goals omega

private theorem bumpFails (nameSpace : String) (e : CacheError) :
    Entry X C I ⟨.backend (.bumpGeneration nameSpace), .error e⟩ ⟨v, l, f, b⟩ ⟨v, l, f + 1, b⟩ := by
  constructor
  all_goals simp
  all_goals omega

private theorem taken (taskId : Int) (digest : String) (value : V) :
    Entry X C I ⟨.pendingGet taskId digest, some value⟩ ⟨v, l, f, b⟩ ⟨v + 1, l, f, b⟩ := by
  constructor
  all_goals simp
  all_goals omega

private theorem missing (taskId : Int) (digest : String) :
    Entry X C I ⟨.pendingGet taskId digest, none⟩ owed owed := by
  constructor <;> simp

private theorem answered (hook : Hook V) (value : V) :
    Entry X C I ⟨.leave hook (.ok (.return value)), ()⟩ ⟨v + 1, l, f, b⟩ ⟨v, l, f, b⟩ := by
  constructor
  all_goals simp
  all_goals omega

private theorem left (hook : Hook V) {reply : Except String (Action V)}
    (silent : ∀ value, reply ≠ .ok (.return value)) :
    Entry X C I ⟨.leave hook reply, ()⟩ owed owed := by
  cases reply with
  | error e => constructor <;> simp
  | ok action =>
    cases action with
    | next => constructor <;> simp
    | «return» value => exact absurd rfl (silent value)

end Entry

/-! ### The programs keep the books -/

variable {call : Call V}

theorem Booked.keeps {α : Type} {p : Code V α} (booked : Booked X C I owed done)
    (quiet : p.Only Op.Unbooked) : p.Ensures (fun _ after => Booked X C I owed after) done :=
  quiet.ensures (fun _ _ r unbooked booked => booked.cons (.unbooked _ unbooked r)) booked

private theorem unbooked_l1Put {e : Int} {d : String} {v : V} : (l1Put I e d v).Only Op.Unbooked := by
  simp only [l1Put, bind_eq, perform_bind, pure_eq]
  refine ⟨trivial, fun _ => ⟨trivial, fun replaced => ?_⟩⟩
  cases replaced with
  | true => trivial
  | false =>
    refine ⟨trivial, fun oldest => ?_⟩
    cases oldest with
    | none => exact ⟨trivial, fun _ => trivial⟩
    | some o => exact ⟨trivial, fun _ => ⟨trivial, fun _ => trivial⟩⟩

private theorem unbooked_wait {load : LoadId} : (wait load : Code V Unit).Only Op.Unbooked := by
  refine waits_wait.mono fun op waits => ?_
  cases op with
  | loading | notified | awaitNotified => trivial
  | _ => cases waits

private theorem unbooked_completeLoad {d : String} {success : Bool} :
    (completeLoad d success : Code V Unit).Only Op.Unbooked := by
  refine completes_completeLoad.mono fun op completes => ?_
  cases op with
  | finishLoad | removeLoad => trivial
  | _ => cases completes

theorem Booked.resolveKey (booked : Booked X C I {} done) (input : CacheKeyInput) :
    (resolveKey I X input).Ensures (fun _ after => Booked X C I {} after) done := by
  unfold RbatisCacheInterceptor.resolveKey
  simp only [bind_eq, perform_bind, pure_eq]
  refine ⟨trivial, fun result => ?_⟩
  cases result with
  | ok g => exact booked.cons (.read _ g)
  | error e =>
    dsimp only
    split
    · next mode => exact ⟨trivial, fun _ => (booked.cons (.readFails _ e mode)).cons .error⟩
    · next mode => exact booked.cons (.readRefused _ e mode)

/-- A lookup in the first-level cache is open until its outcome is counted. -/
theorem Booked.l1Get (booked : Booked X C I {} done) (e : Int) :
    (l1Get e).Ensures (fun _ after => Booked X C I { lookups := 1 } after) done := by
  unfold RbatisCacheInterceptor.l1Get
  simp only [bind_eq, perform_bind, pure_eq]
  refine ⟨trivial, fun result => ?_⟩
  have looked := booked.cons (.look e result)
  cases result with
  | absent => exact looked
  | expired => exact ⟨trivial, fun _ => looked.cons (.unbooked (.l1Remove e) trivial ())⟩
  | live value => exact looked

/-- What is owed after a lookup: the value that it has found. -/
def Owed.ofLookup : Except String (Option V) → Owed
  | .ok (some _) => { values := 1 }
  | _ => {}

theorem Booked.lookupValue (booked : Booked X C I {} done) (e : Int) (key : CacheKey) :
    (lookupValue I X C e key).Ensures (fun a after => Booked X C I (.ofLookup a) after) done := by
  unfold RbatisCacheInterceptor.lookupValue
  simp only [bind_eq, pure_eq]
  refine (booked.l1Get e).andThen fun found looked books _ => ?_
  cases found with
  | some v =>
    simp only [perform_bind]
    exact ⟨trivial, fun _ => books.cons .hit⟩
  | none =>
    simp only [perform_bind]
    refine ⟨trivial, fun result => ?_⟩
    cases result with
    | error e =>
      refine ⟨trivial, fun _ => ?_⟩
      have counted := (books.cons (.getFails key.digest e)).cons .error
      dsimp only
      split
      · exact counted
      · exact counted
    | ok got =>
      cases got with
      | none => exact ⟨trivial, fun _ => (books.cons (.got _ none)).cons .miss⟩
      | some bytes =>
        have kept := books.cons (.got key.digest (some bytes))
        dsimp only
        cases decoded : CacheEnvelope.decode X bytes with
        | error e => exact ⟨trivial, fun _ => kept.cons .miss⟩
        | ok envelope =>
          refine ⟨trivial, fun now => ?_⟩
          have clocked := kept.cons (.unbooked .nowMs trivial now)
          dsimp only
          cases value : C.fromSlice envelope.payload with
          | error e =>
            dsimp only
            split
            · exact (books.cons (.unread key.digest decoded value)).cons (.unbooked .nowMs trivial now)
            · exact ⟨trivial, fun _ => clocked.cons .miss⟩
          | ok v =>
            dsimp only
            split
            · exact ⟨trivial, fun _ => ((clocked.cons .hit).keeps unbooked_l1Put).andThen
                fun _ _ put _ => put⟩
            · exact ⟨trivial, fun _ => clocked.cons .miss⟩

/-- What is owed before a hook call returns: the value that it returns. -/
def Owed.ofReply : Except String (Action V) → Owed
  | .ok (.return _) => { values := 1 }
  | _ => {}

theorem Booked.singleflightLoop (booked : Booked X C I {} done) (digest : String) (remaining : Nat) :
    (singleflightLoop I X C call digest remaining).Ensures
      (fun a after => Booked X C I (.ofReply a) after) done := by
  induction remaining generalizing done with
  | zero => exact booked
  | succ remaining ih =>
    unfold RbatisCacheInterceptor.singleflightLoop
    simp only [bind_eq, perform_bind, pure_eq]
    refine ⟨trivial, fun role => ?_⟩
    have elected := booked.cons (.unbooked (.tryBeginLoad digest) trivial role)
    cases role with
    | leader => exact elected
    | follower load =>
      dsimp only
      split
      · exact elected
      · refine (elected.keeps unbooked_wait).andThen fun _ waited books _ => ?_
        refine (books.resolveKey _).andThen fun resolved read books _ => ?_
        cases resolved with
        | error e => exact books
        | ok key =>
          refine (books.lookupValue _ key).andThen fun looked after books _ => ?_
          cases looked with
          | error e => exact books
          | ok found =>
            cases found with
            | some v => exact books
            | none => exact ih books

theorem Booked.beforeLookup (booked : Booked X C I {} done) :
    (beforeLookup I X C call).Ensures (fun a after => Booked X C I (.ofReply a) after) done := by
  unfold RbatisCacheInterceptor.beforeLookup
  simp only [bind_eq, pure_eq]
  refine (booked.resolveKey _).andThen fun resolved read books _ => ?_
  cases resolved with
  | error e =>
    dsimp only
    split
    · exact books
    · exact books
  | ok key =>
    refine (books.lookupValue _ key).andThen fun looked after books _ => ?_
    cases looked with
    | error e => exact books
    | ok found =>
      cases found with
      | some v => exact books
      | none =>
        dsimp only
        split
        · exact books.singleflightLoop key.digest maxSingleflightAttempts
        · exact books

theorem Booked.bufferedValue (booked : Booked X C I {} done) :
    (bufferedValue I X C call).Ensures
      (fun a after => Booked X C I (.ofLookup (.ok a)) after) done := by
  unfold RbatisCacheInterceptor.bufferedValue
  simp only [pure_eq]
  split
  · cases CacheKey.build X (buildKeyInput I C call) 0 with
    | error e => exact booked
    | ok key =>
      refine ⟨trivial, fun got => ?_⟩
      cases got with
      | none => exact booked.cons (.missing _ _)
      | some v => exact booked.cons (.taken _ _ v)
  · exact booked

theorem Booked.before (booked : Booked X C I {} done) (result : ResultType Unit Unit) :
    (before I X C call result).Ensures (fun a after => Booked X C I (.ofReply a) after) done := by
  cases result with
  | exec => exact booked
  | query =>
    unfold RbatisCacheInterceptor.before
    simp only [bind_eq, pure_eq]
    split
    · exact booked
    · refine booked.bufferedValue.andThen fun found probed books _ => ?_
      cases found with
      | some v => exact books
      | none =>
        dsimp only
        split
        · exact books
        · exact books.beforeLookup

theorem Booked.storeValue (booked : Booked X C I {} done) (key : CacheKey) (value : V)
    (ttl : Duration) :
    (storeValue I X C key value ttl).Ensures (fun _ after => Booked X C I {} after) done := by
  unfold RbatisCacheInterceptor.storeValue
  simp only [bind_eq, perform_bind, pure_eq]
  cases C.toVecNamed value with
  | error e => exact booked
  | ok payload =>
    dsimp only
    split
    · exact booked
    · refine ⟨trivial, fun now => ?_⟩
      have clocked := booked.cons (.unbooked .nowMs trivial now)
      dsimp only
      cases (CacheEnvelope.new key payload ttl now).encode X with
      | error e => exact clocked
      | ok bytes =>
        refine ⟨trivial, fun result => ?_⟩
        cases result with
        | ok stored => exact clocked.cons (.put _ _ _)
        | error e =>
          have counted := (clocked.cons (.putFails key.digest bytes ttl e)).cons .error
          refine ⟨trivial, fun _ => ?_⟩
          dsimp only
          split
          · exact counted
          · exact counted

theorem Booked.afterStore (booked : Booked X C I {} done) (key : CacheKey) (value : V) :
    (afterStore I X C call key value).Ensures (fun _ after => Booked X C I {} after) done := by
  unfold RbatisCacheInterceptor.afterStore
  simp only [bind_eq, perform_bind, pure_eq]
  split
  · exact booked
  · split
    · refine ⟨trivial, fun found => ?_⟩
      have kept := booked.cons (.unbooked (.bufferPut call.taskId key value) trivial found)
      cases found with
      | true => exact kept
      | false => exact kept.storeValue key value _
    · exact booked.storeValue key value _

theorem Booked.afterQuery (booked : Booked X C I {} done) (result : Except String V) :
    (afterQuery I X C call result).Ensures (fun _ after => Booked X C I {} after) done := by
  unfold RbatisCacheInterceptor.afterQuery
  simp only [bind_eq, pure_eq]
  split
  · exact booked
  · refine (booked.resolveKey _).andThen fun resolved read books _ => ?_
    cases resolved with
    | error e => exact books
    | ok key =>
      refine (books.keeps unbooked_completeLoad).andThen fun _ completed books _ => ?_
      cases result with
      | error e => exact books
      | ok value =>
        refine (books.keeps unbooked_l1Put).andThen fun _ filled books _ => ?_
        exact books.afterStore key value

theorem Booked.invalidate (booked : Booked X C I {} done) :
    (invalidate I : Code V _).Ensures (fun _ after => Booked X C I {} after) done := by
  unfold RbatisCacheInterceptor.invalidate
  simp only [bind_eq, perform_bind, pure_eq]
  refine ⟨trivial, fun result => ?_⟩
  cases result with
  | ok g => exact ⟨trivial, fun _ => (booked.cons (.bump _ g)).cons .invalidation⟩
  | error e =>
    have counted := (booked.cons (.bumpFails I.nameSpace e)).cons .error
    refine ⟨trivial, fun _ => ?_⟩
    dsimp only
    split
    · exact counted
    · exact counted

theorem Booked.afterExec (booked : Booked X C I {} done) (result : Except String ExecResult) :
    (afterExec I call result : Code V _).Ensures (fun _ after => Booked X C I {} after) done := by
  cases result with
  | error e => exact booked
  | ok er =>
    unfold RbatisCacheInterceptor.afterExec
    simp only [bind_eq, perform_bind, pure_eq]
    split
    · refine ⟨trivial, fun _ => ?_⟩
      have cleared := booked.cons (.unbooked (.l1Clear call.rb.id) trivial ())
      split
      · split
        · exact ⟨trivial, fun _ => cleared.cons (.unbooked (.clearNamespace _ _) trivial ())⟩
        · exact cleared
      · exact cleared.invalidate
    · exact booked

/-- The calls of the interceptor are counted, those of its listener are not. -/
def Hook.measured : Hook V → Bool
  | .onEvent _ => false
  | _ => true

theorem Booked.runHook (booked : Booked X C I {} done) {hook : Hook V}
    (measured : hook.measured = true) :
    (runHook I X C hook).Ensures (fun a after => Booked X C I (.ofReply a) after) done := by
  cases hook with
  | onEvent event => cases measured
  | before call result => exact booked.before result
  | after call result =>
    have kept : (after I X C call result).Ensures (fun _ after => Booked X C I {} after) done := by
      cases result with
      | query result => exact booked.afterQuery result
      | exec result => exact booked.afterExec result
    unfold RbatisCacheInterceptor.runHook
    simp only [bind_eq, pure_eq]
    refine kept.andThen fun reply after books _ => ?_
    cases reply with
    | error e => exact books
    | ok stored => exact books

theorem Booked.leave (hook : Hook V) {reply : Except String (Action V)}
    (booked : Booked X C I (.ofReply reply) done) :
    Booked X C I {} (⟨.leave hook reply, ()⟩ :: done) := by
  cases reply with
  | error e => exact booked.cons (.left hook fun _ => nofun)
  | ok action =>
    cases action with
    | next => exact booked.cons (.left hook fun _ => nofun)
    | «return» value => exact booked.cons (.answered hook value)

/-! ### The tasks -/

def Task.measured : Task V → Bool
  | .statement _ => true
  | .hook h => h.measured

variable (X C I) in
/-- Whoever leaves a hook call owes what it returns. -/
def Settles (done : Done V) : Op V → Prop
  | .leave _ reply => Booked X C I (.ofReply reply) done
  | _ => True

private theorem settles_of_inner {op : Op V} (inner : op.Inner) : Settles X C I done op := by
  cases op with
  | leave => cases inner
  | _ => trivial

theorem Booked.invoke (booked : Booked X C I {} done) {hook : Hook V}
    (measured : hook.measured = true) :
    (invoke I X C hook).Obeys (Settles X C I) (fun _ after => Booked X C I {} after) done := by
  have entered := booked.cons (.unbooked (.enter hook) trivial ())
  simp only [RbatisCacheInterceptor.invoke, bind_eq, perform_bind, pure_eq]
  refine ⟨trivial, fun _ => ?_⟩
  refine ((entered.runHook measured).obeys only_runHook fun _ _ => settles_of_inner).andThen
    fun reply after books _ => ⟨books, fun _ => books.leave hook⟩

theorem Booked.query (booked : Booked X C I {} done) :
    (query I X C call).Obeys (Settles X C I) (fun _ after => Booked X C I {} after) done := by
  simp only [RbatisCacheInterceptor.query, bind_eq, perform_bind, pure_eq]
  refine (booked.invoke rfl).andThen fun reply before books _ => ?_
  cases reply with
  | error e => exact books
  | ok action =>
    cases action with
    | «return» value => exact books
    | next =>
      refine ⟨trivial, fun result => ?_⟩
      have asked := books.cons (.unbooked (.databaseQuery call) trivial result)
      refine (asked.invoke rfl).andThen fun reply after books _ => ?_
      cases reply with
      | error e => exact books
      | ok action => exact books

theorem Booked.exec (booked : Booked X C I {} done) :
    (exec I X C call).Obeys (Settles X C I) (fun _ after => Booked X C I {} after) done := by
  simp only [RbatisCacheInterceptor.exec, bind_eq, perform_bind, pure_eq]
  refine (booked.invoke rfl).andThen fun reply before books _ => ?_
  cases reply with
  | error e => exact books
  | ok action =>
    refine ⟨trivial, fun result => ?_⟩
    have executed := books.cons (.unbooked (.databaseExec call) trivial result)
    refine (executed.invoke rfl).andThen fun reply after books _ => ?_
    cases reply with
    | error e => exact books
    | ok action => exact books

private theorem settles_program {task : Task V} (measured : task.measured = true) :
    (task.program I X C).Obeys (Settles X C I) (fun _ _ => True) [] := by
  cases task with
  | statement s =>
    cases s with
    | query call => exact (booked_nil.query).andThen fun _ _ _ _ => trivial
    | exec call => exact (booked_nil.exec).andThen fun _ _ _ _ => trivial
  | hook h => exact (booked_nil.invoke measured).andThen fun _ _ _ _ => trivial

/-- The listener counts nothing. -/
theorem uncounted_program {task : Task V} (unmeasured : task.measured = false) :
    (task.program I X C).Only fun op => ∀ m, op ≠ .record m := by
  cases task with
  | statement s => cases unmeasured
  | hook h =>
    cases h with
    | before call result => cases unmeasured
    | after call result => cases unmeasured
    | onEvent event =>
      have listens : (onEvent I X C event).Only fun op => ∀ m, op ≠ .record m := by
        refine listens_onEvent.mono fun op listens m => ?_
        rintro rfl
        cases listens
      have hooked : (RbatisCacheInterceptor.runHook I X C (.onEvent event)).Only
          fun op => ∀ m, op ≠ .record m := listens.bind fun _ => trivial
      have invoked : (RbatisCacheInterceptor.invoke I X C (.onEvent event)).Only
          fun op => ∀ m, op ≠ .record m := by
        simp only [RbatisCacheInterceptor.invoke, bind_eq, perform_bind, pure_eq]
        refine ⟨fun m same => (by cases same), fun _ => hooked.bind fun reply => ?_⟩
        exact ⟨fun m same => (by cases same), fun _ => trivial⟩
      exact invoked.bind fun _ => trivial

end

section
variable {B : CacheBackend} {V T : Type} [DecidableEq T] {X : Externals Bytes} {C : ValueCodec V}
variable {I : RbatisCacheInterceptor} {tasks : T → Task V} {state : B.State}
variable {A : Restriction T (Op V) Op.Res (Choice B V) (World B V)}

variable (X C I) in
/-- What a task makes sure of for the counters. -/
def accounting (task : Task V) (done : Done V) (op : Op V) : Prop :=
  bracket done op ∧ (task.measured = true → Settles X C I done op) ∧
    (task.measured = false → ∀ m, op ≠ .record m)

private theorem accounting_program (task : Task V) :
    (task.program I X C).Obeys (accounting X C I task) (fun _ _ => True) [] := by
  cases measured : task.measured with
  | true =>
    have both := Prog.Obeys.and bracketed_program (settles_program (I := I) (X := X) (C := C) measured)
    refine (both.weaken fun _ _ allowed => ⟨allowed.1, fun _ => allowed.2, fun un => ?_⟩).mono
      fun _ _ _ => trivial
    rw [measured] at un
    cases un
  | false =>
    have silent : (task.program I X C).Obeys (fun _ op => ∀ m, op ≠ .record m) (fun _ _ => True) [] :=
      (uncounted_program measured).obeys (K := fun _ => True) (fun _ _ other _ => other)
        (fun _ _ _ _ _ => trivial) trivial
    refine ((Prog.Obeys.and bracketed_program silent).weaken fun _ _ allowed =>
      ⟨allowed.1, fun un => ?_, fun _ => allowed.2⟩).mono fun _ _ _ => trivial
    rw [measured] at un
    cases un

/-- How often a counter has been increased. -/
def records (m : Metric) (h : History V T) : Nat := h.countP fun e => recorded m ⟨e.op, e.result⟩

variable (X C I tasks) in
/-- The counters, and the books of everybody who is not inside a hook call. -/
structure Accounts (w : World B V) (h : History V T) : Prop where
  metrics : ∀ m, w.metrics.counter m = .ofNat (records m h)
  booked : ∀ t, (tasks t).measured = true → ¬ (phase (h.own t)).Inside → Booked X C I {} (h.own t)
  silent : ∀ t m, (tasks t).measured = false → (h.own t).countP (recorded m) = 0

omit [DecidableEq T] in
private theorem counter_onBuffer (w : World B V) (taskId : Int)
    (f : TransactionalCacheBuffer V → TransactionalCacheBuffer V) (m : Metric) :
    (w.onBuffer taskId f).2.metrics.counter m = w.metrics.counter m := by
  unfold World.onBuffer
  split <;> rfl

omit [DecidableEq T] in
private theorem counter_of_other {t : T} {op : Op V} {ch : Choice B V} {w u : World B V} {r : op.Res}
    (performed : (machine B V T I).perform t op ch w = some (r, u)) (other : ∀ n, op ≠ .record n)
    (m : Metric) : u.metrics.counter m = w.metrics.counter m := by
  cases op with
  | record n => exact absurd rfl (other n)
  | awaitNotified load seen =>
    simp only [machine] at performed
    split at performed
    · obtain ⟨-, rfl⟩ := Prod.mk.inj (Option.some.inj performed)
      rfl
    · cases performed
  | bufferPut taskId key value =>
    obtain ⟨-, rfl⟩ := Prod.mk.inj (Option.some.inj performed)
    exact counter_onBuffer w taskId _ m
  | clearNamespace taskId nameSpace =>
    obtain ⟨-, rfl⟩ := Prod.mk.inj (Option.some.inj performed)
    exact counter_onBuffer w taskId _ m
  | _ =>
    obtain ⟨-, rfl⟩ := Prod.mk.inj (Option.some.inj performed)
    rfl

omit [DecidableEq T] in
/-- Only a record changes the counters. -/
private theorem counter_of_machine {t : T} {op : Op V} {ch : Choice B V} {w u : World B V} {r : op.Res}
    (performed : (machine B V T I).perform t op ch w = some (r, u)) (m : Metric) :
    u.metrics.counter m = w.metrics.counter m + .ofNat (recorded m ⟨op, r⟩).toNat := by
  by_cases other : ∀ n, op ≠ .record n
  · have silent : recorded m (⟨op, r⟩ : Sigma (Op.Res (V := V))) = false := by
      cases op with
      | record n => exact absurd rfl (other n)
      | _ => rfl
    rw [counter_of_other performed other, silent]
    exact (UInt64.add_zero _).symm
  · push Not at other
    obtain ⟨n, rfl⟩ := other
    obtain ⟨-, rfl⟩ := Prod.mk.inj (Option.some.inj performed)
    refine (CacheMetrics.counter_record w.metrics n m).trans ?_
    by_cases same : n = m <;> simp [same]

private theorem accounts_preserved : Preserves (machine B V T I) A (fun t => accounting X C I (tasks t))
    (Accounts X C I tasks) := by
  intro t op ch w h r u accounts ⟨inside, settles, silent⟩ _ performed
  have metrics (m : Metric) : u.metrics.counter m = .ofNat (records m (⟨t, op, r⟩ :: h)) := by
    rw [counter_of_machine performed m, accounts.metrics m, records, records, countP_cons_toNat,
      UInt64.ofNat_add]
  refine ⟨metrics, fun s measured outside => ?_, fun s m unmeasured => ?_⟩
  · by_cases same : s = t
    · subst same
      rw [History.own_cons_self] at outside ⊢
      by_cases inner : op.Inner
      · obtain ⟨hook, within⟩ := (bracket_of_inner inner).mp inside
        rw [phase_cons_of_inner inner, within] at outside
        exact absurd trivial outside
      · cases op with
        | enter hook => exact absurd trivial outside
        | leave hook reply => exact (settles measured).leave hook
        | databaseQuery call =>
          have left : phase (h.own s) = .left (.before call (.query ())) (.ok .next) := inside
          have books := accounts.booked s measured (by rw [left]; exact id)
          exact books.cons (.unbooked (.databaseQuery call) trivial r)
        | databaseExec call =>
          obtain ⟨action, left⟩ := inside
          have books := accounts.booked s measured (by rw [left]; exact id)
          exact books.cons (.unbooked (.databaseExec call) trivial r)
        | _ => exact absurd trivial inner
    · rw [History.own_cons_ne (Ne.symm same)] at outside ⊢
      exact accounts.booked s measured outside
  · by_cases same : s = t
    · subst same
      have other : recorded m (⟨op, r⟩ : Sigma (Op.Res (V := V))) = false := by
        cases op with
        | record n => exact absurd rfl (silent unmeasured n)
        | _ => rfl
      rw [History.own_cons_self, countP_cons_toNat, accounts.silent s m unmeasured, other]
      rfl
    · rw [History.own_cons_ne (Ne.symm same)]
      exact accounts.silent s m unmeasured

private theorem accounts_initial : Accounts X C I tasks (initial I X C tasks state).world
    (initial I X C tasks state).history where
  metrics m := by cases m <;> rfl
  booked t _ _ := booked_nil
  silent t m _ := rfl

/-- How often the calls of the interceptor have done something. -/
def called (tasks : T → Task V) (p : Sigma (Op.Res (V := V)) → Bool) (h : History V T) : Nat :=
  h.countP fun e => (tasks e.task).measured && p ⟨e.op, e.result⟩

variable (X C I tasks) in
/-- What the counters say, by how often each has been increased. -/
structure Told (counts : Metric → Nat) (h : History V T) : Prop where
  hits : counts .hit + called tasks buffered h = called tasks answering h
  covered : counts .hit + counts .miss + called tasks failedGet h ≤ called tasks looking h
  covers : called tasks looking h ≤
    counts .hit + counts .miss + called tasks failedGet h + called tasks (unreadable X C) h
  failures : counts .backendError = called tasks (failing I) h
  bumps : counts .invalidation = called tasks invalidating h
  loads : counts .load = 0
  bypasses : counts .bypass = 0

private theorem countP_measured (task : Task V) (p : Sigma (Op.Res (V := V)) → Bool) (done : Done V) :
    done.countP (fun e => task.measured && p e) = if task.measured then done.countP p else 0 := by
  cases task.measured with
  | true => simp
  | false => simp

/-- Whenever no hook call is in progress, whatever the backend does: every answered query is one hit or
comes out of a transaction buffer; the hits, the misses and the failed reads are as many as the lookups,
but for lookups that have found an envelope without a value; the errors are the failures of the calls, but
for generations in the fail-closed mode; the invalidations are the bumps of the calls, not those of commits;
and nothing is counted as a load or a bypass. Each counter is such a number as far as 64 bits go. -/
theorem counters_tell [Fintype T] {d : Config T (Op V) Op.Res (World B V) (Reply V)}
    (run : Reaches (machine B V T I) A (initial I X C tasks state) d)
    (quiet : ∀ t, ¬ (phase (d.history.own t)).Inside) :
    (∀ m, d.world.metrics.counter m = .ofNat (records m d.history)) ∧
      Told X C I tasks (fun m => records m d.history) d.history := by
  have obeys : (initial I X C tasks state).Obeys (fun t => accounting X C I (tasks t))
      fun _ _ _ => True := fun t => accounting_program (tasks t)
  obtain ⟨accounts, -⟩ := run.preserves accounts_preserved obeys accounts_initial
  have counter (m : Metric) : records m d.history =
      ∑ t, (d.history.own t).countP (recorded m) :=
    History.countP_eq_sum_own (recorded m) d.history
  have count (p : Sigma (Op.Res (V := V)) → Bool) : called tasks p d.history =
      ∑ t, if (tasks t).measured then (d.history.own t).countP p else 0 := by
    rw [called, History.countP_task_eq_sum_own (fun t e => (tasks t).measured && p e)]
    exact Finset.sum_congr rfl fun t _ => countP_measured (tasks t) p _
  have books (t : T) (measured : (tasks t).measured = true) := accounts.booked t measured (quiet t)
  have silent (t : T) (m : Metric) := accounts.silent t m
  refine ⟨accounts.metrics, ?_⟩
  constructor
  case hits =>
    rw [counter, count, count, ← Finset.sum_add_distrib]
    refine Finset.sum_congr rfl fun t _ => ?_
    cases measured : (tasks t).measured with
    | true => exact (books t measured).hits
    | false => exact congrArg (· + 0) (silent t .hit measured)
  case covered =>
    rw [counter, counter, count, count, ← Finset.sum_add_distrib, ← Finset.sum_add_distrib]
    refine Finset.sum_le_sum fun t _ => ?_
    cases measured : (tasks t).measured with
    | true => exact (books t measured).covered
    | false => simp [silent t _ measured]
  case covers =>
    rw [counter, counter, count, count, count, ← Finset.sum_add_distrib, ← Finset.sum_add_distrib,
      ← Finset.sum_add_distrib]
    refine Finset.sum_le_sum fun t _ => ?_
    cases measured : (tasks t).measured with
    | true => exact (books t measured).covers
    | false => simp
  case failures =>
    rw [counter, count]
    refine Finset.sum_congr rfl fun t _ => ?_
    cases measured : (tasks t).measured with
    | true => exact (books t measured).failures
    | false => exact silent t .backendError measured
  case bumps =>
    rw [counter, count]
    refine Finset.sum_congr rfl fun t _ => ?_
    cases measured : (tasks t).measured with
    | true => exact (books t measured).bumps
    | false => exact silent t .invalidation measured
  case loads =>
    refine (counter .load).trans (Finset.sum_eq_zero fun t _ => ?_)
    cases measured : (tasks t).measured with
    | true => exact (books t measured).loads
    | false => exact silent t .load measured
  case bypasses =>
    refine (counter .bypass).trans (Finset.sum_eq_zero fun t _ => ?_)
    cases measured : (tasks t).measured with
    | true => exact (books t measured).bypasses
    | false => exact silent t .bypass measured

end

/-- A statement and two queries that go well: one bump, one miss and one hit. -/
theorem second_query_counted :
    ∃ d, Reaches (Sample.steps (Fin 3) Sample.interceptor) Restriction.none
        (Sample.start Sample.interceptor fun t =>
          if t = 0 then Sample.dml (Sample.call 1 "UPDATE t SET x = 1")
          else Sample.select (Sample.call 1 "SELECT 1")) d ∧
      Told Sample.externals Sample.codec Sample.interceptor (fun t : Fin 3 =>
          if t = 0 then Sample.dml (Sample.call 1 "UPDATE t SET x = 1")
          else Sample.select (Sample.call 1 "SELECT 1")) (fun m => records m d.history) d.history ∧
      d.world.metrics = { hits := 1, misses := 1, invalidations := 1 } := by
  obtain ⟨d, run, seen⟩ := play_observed (M := Sample.steps (Fin 3) Sample.interceptor)
    (A := Restriction.none) (c := Sample.start Sample.interceptor fun t =>
      if t = 0 then Sample.dml (Sample.call 1 "UPDATE t SET x = 1")
      else Sample.select (Sample.call 1 "SELECT 1"))
    (List.replicate 8 (0, Sample.reading 7) ++ List.replicate 19 (1, Sample.reading 8) ++
      List.replicate 5 (2, Sample.reading 9))
    (fun d => decide (d.world.metrics = { hits := 1, misses := 1, invalidations := 1 }) &&
      decide (∀ t, ¬ (phase (d.history.own t)).Inside))
    (by decide +kernel)
  simp only [Bool.and_eq_true, decide_eq_true_eq] at seen
  exact ⟨d, run, (counters_tell run seen.2).2, seen.1⟩

end RbatisCache.RbatisInterceptor
