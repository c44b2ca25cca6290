import RbatisCache.Interleaving.Protocol
import RbatisCache.RbatisInterceptor.Model

/-! Hook calls as brackets: what a task does to the caches it does between entering a hook and
leaving it, and its database operation lies between its two hook calls. -/
namespace RbatisCache.RbatisInterceptor
open Interleaving
open Interleaving.Prog (perform bind_eq perform_bind pure_eq Only)
open RbatisCacheInterceptor

section
variable {V : Type}

abbrev Done (V : Type) := List (Sigma (Op.Res (V := V)))

/-- An operation of a hook call. -/
def Op.Inner : Op V → Prop
  | .enter _ | .leave _ _ | .databaseQuery _ | .databaseExec _ => False
  | _ => True

/-- An operation of a `before`: it changes nothing in the backend and in the transaction buffers. -/
def Op.Reads : Op V → Prop
  | .enter _ | .leave _ _ | .databaseQuery _ | .databaseExec _ => False
  | .backend (.put _ _ _) | .backend (.bumpGeneration _) => False
  | .bufferPut _ _ _ | .clearNamespace _ _ | .insertBuffer _ | .removeBuffer _ => False
  | _ => True

/-- An operation of the hook calls of a query: it invalidates nothing. -/
def Op.Queries : Op V → Prop
  | .enter _ | .leave _ _ | .databaseQuery _ | .databaseExec _ => False
  | .backend (.bumpGeneration _) => False
  | .clearNamespace _ _ | .insertBuffer _ | .removeBuffer _ => False
  | _ => True

/-- An operation of the listener. -/
def Op.Listens : Op V → Prop
  | .backend _ | .nowMs | .insertBuffer _ | .removeBuffer _ => True
  | _ => False

/-- An operation of a flush, after its bumps. -/
def Op.Flushes : Op V → Prop
  | .nowMs | .backend (.put _ _ _) => True
  | _ => False

/-- An operation of a `before` that neither asks the backend nor for the election of a loader. -/
def Op.Local : Op V → Prop
  | .enter _ | .leave _ _ | .databaseQuery _ | .databaseExec _ | .backend _ | .tryBeginLoad _ => False
  | .bufferPut _ _ _ | .clearNamespace _ _ | .insertBuffer _ | .removeBuffer _ => False
  | _ => True

theorem Op.Queries.inner : ∀ op : Op V, op.Queries → op.Inner := by
  intro op h
  cases op with
  | enter | leave | databaseQuery | databaseExec => cases h
  | _ => trivial

theorem Op.Listens.inner : ∀ op : Op V, op.Listens → op.Inner := by
  intro op h
  cases op with
  | backend | nowMs | insertBuffer | removeBuffer => trivial
  | _ => cases h

theorem Op.Reads.queries : ∀ op : Op V, op.Reads → op.Queries := by
  intro op h
  cases op with
  | enter | leave | databaseQuery | databaseExec => cases h
  | clearNamespace | insertBuffer | removeBuffer => cases h
  | backend o =>
    cases o with
    | bumpGeneration => cases h
    | _ => trivial
  | _ => trivial

theorem Op.Reads.inner (op : Op V) (h : op.Reads) : op.Inner := (Op.Reads.queries op h).inner

theorem Op.Local.reads : ∀ op : Op V, op.Local → op.Reads := by
  intro op h
  cases op with
  | enter | leave | databaseQuery | databaseExec | backend => cases h
  | bufferPut | clearNamespace | insertBuffer | removeBuffer => cases h
  | _ => trivial

theorem Op.Local.inner (op : Op V) (h : op.Local) : op.Inner := (Op.Local.reads op h).inner

/-- An operation of `resolve_key`. -/
def Op.Resolves : Op V → Prop
  | .backend (.generation _) | .record _ => True
  | _ => False

/-- An operation of `L1Cache::get` and `L1Cache::put`. -/
def Op.OnL1 : Op V → Prop
  | .l1Lookup _ | .l1Remove _ | .instantNow | .l1Replace _ _ _ | .l1Oldest | .l1Insert _ _ _ => True
  | _ => False

/-- An operation of `lookup_value`. -/
def Op.Looks : Op V → Prop
  | .backend (.get _) | .nowMs | .record _ => True
  | op => op.OnL1

/-- An operation of `LoadState::wait`. -/
def Op.Waits : Op V → Prop
  | .loading _ | .notified _ | .awaitNotified _ _ => True
  | _ => False

/-- An operation with which the `after` of a query stores its result. -/
def Op.Deposits : Op V → Prop
  | .backend (.put _ _ _) | .nowMs | .record _ | .bufferPut _ _ _ => True
  | _ => False

/-- An operation of `SingleFlight::complete_load`. -/
def Op.Completes : Op V → Prop
  | .finishLoad _ _ | .removeLoad _ => True
  | _ => False

/-- An operation with which the `after` of a write invalidates. -/
def Op.Drops : Op V → Prop
  | .l1Clear _ | .clearNamespace _ _ | .backend (.bumpGeneration _) | .record _ => True
  | _ => False

theorem Op.Completes.isLocal : ∀ op : Op V, op.Completes → op.Local := by
  intro op h
  cases op with
  | finishLoad | removeLoad => trivial
  | _ => cases h

theorem Op.Drops.inner : ∀ op : Op V, op.Drops → op.Inner := by
  intro op h
  cases op with
  | l1Clear | clearNamespace | backend | record => trivial
  | _ => cases h

theorem Op.Resolves.reads : ∀ op : Op V, op.Resolves → op.Reads := by
  intro op h
  cases op with
  | backend o =>
    cases o with
    | generation => trivial
    | _ => cases h
  | record => trivial
  | _ => cases h

theorem Op.OnL1.isLocal : ∀ op : Op V, op.OnL1 → op.Local := by
  intro op h
  cases op with
  | l1Lookup | l1Remove | instantNow | l1Replace | l1Oldest | l1Insert => trivial
  | _ => cases h

theorem Op.OnL1.looks : ∀ op : Op V, op.OnL1 → op.Looks := by
  intro op h
  cases op with
  | l1Lookup | l1Remove | instantNow | l1Replace | l1Oldest | l1Insert => trivial
  | _ => cases h

theorem Op.Looks.reads : ∀ op : Op V, op.Looks → op.Reads := by
  intro op h
  cases op with
  | backend o =>
    cases o with
    | get => trivial
    | _ => cases h
  | nowMs | record | l1Lookup | l1Remove | instantNow | l1Replace | l1Oldest | l1Insert => trivial
  | _ => cases h

theorem Op.Waits.isLocal : ∀ op : Op V, op.Waits → op.Local := by
  intro op h
  cases op with
  | loading | notified | awaitNotified => trivial
  | _ => cases h

theorem Op.Deposits.queries : ∀ op : Op V, op.Deposits → op.Queries := by
  intro op h
  cases op with
  | backend o =>
    cases o with
    | put => trivial
    | _ => cases h
  | nowMs | record | bufferPut => trivial
  | _ => cases h

def Op.isEnter : Op V → Bool
  | .enter _ => true
  | _ => false

/-- The executor whose slot an operation reads. -/
def Op.lookedUp : Op V → Option Int
  | .l1Lookup e => some e
  | _ => none

/-- The query whose result an operation hands to `after`. -/
def Op.handedOver : Op V → Option (Call V)
  | .enter (.after call (.query _)) => some call
  | _ => none

/-- Where a task is in its statement. -/
inductive Phase (V : Type) where
  | idle
  | inside (hook : Hook V)
  | left (hook : Hook V) (reply : Except String (Action V))
  | performed

def phase : Done V → Phase V
  | [] => .idle
  | ⟨.enter hook, _⟩ :: _ => .inside hook
  | ⟨.leave hook reply, _⟩ :: _ => .left hook reply
  | ⟨.databaseQuery _, _⟩ :: _ | ⟨.databaseExec _, _⟩ :: _ => .performed
  | _ :: rest => phase rest

/-- In which phase a task performs which operation. -/
def bracket (done : Done V) : Op V → Prop
  | .enter (.before _ _) | .enter (.onEvent _) => phase done = .idle
  | .enter (.after _ _) => phase done = .idle ∨ phase done = .performed
  | .leave hook _ => phase done = .inside hook
  | .databaseQuery call => phase done = .left (.before call (.query ())) (.ok .next)
  | .databaseExec call => ∃ action, phase done = .left (.before call (.exec ())) (.ok action)
  | _ => ∃ hook, phase done = .inside hook

theorem bracket_of_inner {done : Done V} {op : Op V} (hop : op.Inner) :
    bracket done op ↔ ∃ hook, phase done = .inside hook := by
  cases op with
  | enter | leave | databaseQuery | databaseExec => cases hop
  | _ => rfl

theorem phase_cons_of_inner {done : Done V} {op : Op V} (hop : op.Inner) (r : op.Res) :
    phase (⟨op, r⟩ :: done) = phase done := by
  cases op with
  | enter | leave | databaseQuery | databaseExec => cases hop
  | _ => rfl

/-- A record that goes on inside the same hook call. -/
def Continues (done later : Done V) : Prop := done <:+ later ∧ phase later = phase done

theorem Continues.refl (done : Done V) : Continues done done := ⟨List.suffix_refl _, rfl⟩

theorem Continues.cons {done later : Done V} (h : Continues done later) {op : Op V}
    (hop : op.Inner) (r : op.Res) : Continues done (⟨op, r⟩ :: later) :=
  ⟨h.1.trans (List.suffix_cons _ _), (phase_cons_of_inner hop r).trans h.2⟩

theorem Continues.step (done : Done V) (op : Op V) (r : op.Res) (hop : op.Inner) :
    Continues done (⟨op, r⟩ :: done) := (Continues.refl done).cons hop r

/-- Composition with a first program that stays inside the hook call. -/
theorem obeys_bind_inside {α β : Type} {rule : Done V → Op V → Prop} {Q : α → Done V → Prop}
    {S : β → Done V → Prop} {p : Prog (Op V) Op.Res α} {f : α → Prog (Op V) Op.Res β}
    {done : Done V} (h : p.Obeys rule Q done) (ho : p.Only Op.Inner)
    (hf : ∀ a after, Q a after → Continues done after → (f a).Obeys rule S after) :
    (p.bind f).Obeys rule S done := by
  refine Prog.Obeys.bind ?_
  suffices hc : ∀ later, Continues done later → p.Obeys rule Q later →
      p.Obeys rule (fun a after => (f a).Obeys rule S after) later from hc done (.refl done) h
  clear h
  induction p with
  | ret a => exact fun later hl hq => hf a later hq hl
  | call op next ih =>
    exact fun later hl hq => ⟨hq.1, fun r => ih r (ho.2 r) _ (hl.cons ho.1 r) (hq.2 r)⟩

variable {I : RbatisCacheInterceptor} {X : Externals Bytes} {C : ValueCodec V} {call : Call V}

/-! ### The programs of the hooks -/

theorem resolves_resolveKey {input : CacheKeyInput} :
    (resolveKey I X input : Code V _).Only Op.Resolves := by
  simp only [resolveKey, bind_eq, perform_bind, pure_eq]
  refine ⟨trivial, fun result => ?_⟩
  match result with
  | .ok _ => trivial
  | .error _ =>
    dsimp only
    split
    · exact ⟨trivial, fun _ => trivial⟩
    · trivial

theorem reads_resolveKey {input : CacheKeyInput} :
    (resolveKey I X input : Code V _).Only Op.Reads :=
  resolves_resolveKey.mono Op.Resolves.reads

private theorem onL1_l1Get {e : Int} : (l1Get e : Code V _).Only Op.OnL1 := by
  simp only [l1Get, bind_eq, perform_bind, pure_eq]
  refine ⟨trivial, fun result => ?_⟩
  match result with
  | .absent | .live _ => trivial
  | .expired => exact ⟨trivial, fun _ => trivial⟩

theorem local_l1Get {e : Int} : (l1Get e : Code V _).Only Op.Local :=
  onL1_l1Get.mono Op.OnL1.isLocal

theorem onL1_l1Put {e : Int} {d : String} {v : V} : (l1Put I e d v).Only Op.OnL1 := by
  simp only [l1Put, bind_eq, perform_bind, pure_eq]
  refine ⟨trivial, fun _ => ⟨trivial, fun replaced => ?_⟩⟩
  match replaced with
  | true => trivial
  | false =>
    refine ⟨trivial, fun oldest => ?_⟩
    match oldest with
    | none => exact ⟨trivial, fun _ => trivial⟩
    | some _ => exact ⟨trivial, fun _ => ⟨trivial, fun _ => trivial⟩⟩

theorem local_l1Put {e : Int} {d : String} {v : V} : (l1Put I e d v).Only Op.Local :=
  onL1_l1Put.mono Op.OnL1.isLocal

theorem looks_lookupValue {e : Int} {key : CacheKey} :
    (lookupValue I X C e key).Only Op.Looks := by
  simp only [lookupValue, bind_eq, perform_bind, pure_eq]
  refine (onL1_l1Get.mono Op.OnL1.looks).bind fun a => ?_
  match a with
  | some v => exact ⟨trivial, fun _ => trivial⟩
  | none =>
    refine ⟨trivial, fun result => ?_⟩
    match result with
    | .ok none => exact ⟨trivial, fun _ => trivial⟩
    | .error _ =>
      refine ⟨trivial, fun _ => ?_⟩
      dsimp only
      split
      · trivial
      · trivial
    | .ok (some bytes) =>
      dsimp only
      split
      · exact ⟨trivial, fun _ => trivial⟩
      · refine ⟨trivial, fun _ => ?_⟩
        dsimp only
        split
        · split
          · exact ⟨trivial, fun _ => (onL1_l1Put.mono Op.OnL1.looks).bind fun _ => trivial⟩
          · trivial
        · exact ⟨trivial, fun _ => trivial⟩

theorem reads_lookupValue {e : Int} {key : CacheKey} :
    (lookupValue I X C e key).Only Op.Reads :=
  looks_lookupValue.mono Op.Looks.reads

private theorem deposits_storeValue {key : CacheKey} {v : V} {ttl : Duration} :
    (storeValue I X C key v ttl).Only Op.Deposits := by
  simp only [storeValue, bind_eq, perform_bind, pure_eq]
  split
  · trivial
  · split
    · trivial
    · refine ⟨trivial, fun _ => ?_⟩
      dsimp only
      split
      · trivial
      · refine ⟨trivial, fun result => ?_⟩
        match result with
        | .ok _ => trivial
        | .error _ =>
          refine ⟨trivial, fun _ => ?_⟩
          dsimp only
          split
          · trivial
          · trivial

theorem deposits_afterStore {key : CacheKey} {v : V} :
    (afterStore I X C call key v).Only Op.Deposits := by
  simp only [afterStore, bind_eq, perform_bind, pure_eq]
  split
  · trivial
  · split
    · refine ⟨trivial, fun buffered => ?_⟩
      match buffered with
      | true => trivial
      | false => exact deposits_storeValue
    · exact deposits_storeValue

theorem completes_completeLoad {d : String} {success : Bool} :
    (completeLoad d success : Code V Unit).Only Op.Completes := by
  simp only [completeLoad, bind_eq, perform_bind, pure_eq]
  refine ⟨trivial, fun found => ?_⟩
  match found with
  | true => exact ⟨trivial, fun _ => trivial⟩
  | false => trivial

theorem local_completeLoad {d : String} {success : Bool} :
    (completeLoad d success : Code V Unit).Only Op.Local :=
  completes_completeLoad.mono Op.Completes.isLocal

theorem waits_wait {load : LoadId} : (wait load : Code V Unit).Only Op.Waits := by
  simp only [wait, bind_eq, perform_bind, pure_eq]
  refine ⟨trivial, fun loading => ?_⟩
  match loading with
  | true => exact ⟨trivial, fun _ => ⟨trivial, fun _ => trivial⟩⟩
  | false => trivial

theorem local_wait {load : LoadId} : (wait load : Code V Unit).Only Op.Local :=
  waits_wait.mono Op.Waits.isLocal

private theorem reads_singleflightLoop {d : String} {remaining : Nat} :
    (singleflightLoop I X C call d remaining).Only Op.Reads := by
  induction remaining with
  | zero => trivial
  | succ remaining ih =>
    simp only [singleflightLoop, bind_eq, perform_bind, pure_eq]
    refine ⟨trivial, fun role => ?_⟩
    match role with
    | .leader => trivial
    | .follower load =>
      dsimp only
      split
      · trivial
      · refine (local_wait.mono Op.Local.reads).bind fun _ => reads_resolveKey.bind fun resolved => ?_
        match resolved with
        | .error _ => trivial
        | .ok key =>
          refine reads_lookupValue.bind fun looked => ?_
          match looked with
          | .error _ | .ok (some _) => trivial
          | .ok none => exact ih

private theorem reads_beforeLookup : (beforeLookup I X C call).Only Op.Reads := by
  simp only [beforeLookup, bind_eq, pure_eq]
  refine reads_resolveKey.bind fun resolved => ?_
  match resolved with
  | .error _ =>
    dsimp only
    split
    · trivial
    · trivial
  | .ok key =>
    refine reads_lookupValue.bind fun looked => ?_
    match looked with
    | .error _ | .ok (some _) => trivial
    | .ok none =>
      dsimp only
      split
      · exact reads_singleflightLoop
      · trivial

theorem local_bufferedValue : (bufferedValue I X C call).Only Op.Local := by
  simp only [bufferedValue, pure_eq]
  split
  · split
    · exact ⟨trivial, fun _ => trivial⟩
    · trivial
  · trivial

theorem reads_before {result : ResultType Unit Unit} : (before I X C call result).Only Op.Reads := by
  match result with
  | .exec _ => trivial
  | .query _ =>
    simp only [before, bind_eq, pure_eq]
    split
    · trivial
    · refine (local_bufferedValue.mono Op.Local.reads).bind fun buffered => ?_
      match buffered with
      | some _ => trivial
      | none =>
        dsimp only
        split
        · trivial
        · exact reads_beforeLookup

theorem queries_afterQuery {result : Except String V} :
    (afterQuery I X C call result).Only Op.Queries := by
  simp only [afterQuery, bind_eq, pure_eq]
  split
  · trivial
  · refine (reads_resolveKey.mono Op.Reads.queries).bind fun resolved => ?_
    match resolved with
    | .error _ => trivial
    | .ok key =>
      refine ((local_completeLoad.mono Op.Local.reads).mono Op.Reads.queries).bind fun _ => ?_
      match result with
      | .error _ => trivial
      | .ok value =>
        refine ((local_l1Put.mono Op.Local.reads).mono Op.Reads.queries).bind fun _ => ?_
        exact deposits_afterStore.mono Op.Deposits.queries

theorem drops_afterExec {result : Except String ExecResult} :
    (afterExec I call result).Only Op.Drops := by
  match result with
  | .error _ => trivial
  | .ok er =>
    simp only [afterExec, invalidate, bind_eq, perform_bind, pure_eq]
    split
    · refine ⟨trivial, fun _ => ?_⟩
      split
      · split
        · exact ⟨trivial, fun _ => trivial⟩
        · trivial
      · refine ⟨trivial, fun bumped => ?_⟩
        match bumped with
        | .ok _ => exact ⟨trivial, fun _ => trivial⟩
        | .error _ =>
          refine ⟨trivial, fun _ => ?_⟩
          dsimp only
          split
          · trivial
          · trivial
    · trivial

private theorem listens_flushNamespaces {nameSpaces : List String} :
    (flushNamespaces nameSpaces : Code V _).Only Op.Listens := by
  induction nameSpaces with
  | nil => trivial
  | cons n rest ih =>
    simp only [flushNamespaces, bind_eq, perform_bind, pure_eq]
    refine ⟨trivial, fun result => ?_⟩
    match result with
    | .error _ => trivial
    | .ok _ => exact ih

private theorem listens_flushEntries {ttl : Duration} {entries : List (CacheKey × V)} :
    (flushEntries X C ttl entries).Only Op.Listens := by
  induction entries with
  | nil => trivial
  | cons entry rest ih =>
    simp only [flushEntries, bind_eq, perform_bind, pure_eq]
    split
    · trivial
    · refine ⟨trivial, fun _ => ?_⟩
      dsimp only
      split
      · trivial
      · refine ⟨trivial, fun result => ?_⟩
        match result with
        | .error _ => trivial
        | .ok _ => exact ih

/-- A flush keeps what its operations keep, and puts its entries in envelopes of the moment. -/
theorem obeys_flushes {rule : Done V → Op V → Prop} {K : Done V → Prop} {ttl : Duration}
    {entries : List (CacheKey × V)} {done : Done V}
    (keeps : ∀ past op (r : op.Res), op.Flushes → K past → K (⟨op, r⟩ :: past))
    (clock : ∀ past, K past → rule past .nowMs)
    (puts : ∀ past key v payload now bytes, (key, v) ∈ entries → K past → C.toVecNamed v = .ok payload →
      (CacheEnvelope.new key payload ttl now).encode X = .ok bytes →
        rule (⟨.nowMs, now⟩ :: past) (.backend (.put key.digest bytes ttl))) (hd : K done) :
    (flushEntries X C ttl entries).Obeys rule (fun _ after => K after) done := by
  induction entries generalizing done with
  | nil => exact hd
  | cons entry rest ih =>
    obtain ⟨key, v⟩ := entry
    simp only [flushEntries, bind_eq, perform_bind, pure_eq]
    cases encoded : C.toVecNamed v with
    | error e => exact hd
    | ok payload =>
      refine ⟨clock done hd, fun now => ?_⟩
      have read : K (⟨.nowMs, now⟩ :: done) := keeps done .nowMs now trivial hd
      dsimp only
      cases sealed : (CacheEnvelope.new key payload ttl now).encode X with
      | error e => exact read
      | ok bytes =>
        refine ⟨puts done key v payload now bytes List.mem_cons_self hd encoded sealed, fun result => ?_⟩
        have put := keeps _ (.backend (.put key.digest bytes ttl)) result trivial read
        cases result with
        | error e => exact put
        | ok u => exact ih (fun past k w _ _ _ hm => puts past k w _ _ _ (List.mem_cons_of_mem _ hm)) put

theorem listens_onEvent {event : TransactionEvent} : (onEvent I X C event).Only Op.Listens := by
  simp only [onEvent, flushTo, bind_eq, perform_bind, pure_eq]
  split
  · split
    · exact ⟨trivial, fun _ => trivial⟩
    · trivial
  · split
    · refine ⟨trivial, fun result => ?_⟩
      match result with
      | none => trivial
      | some buffer =>
        refine Only.bind (listens_flushNamespaces.bind fun bumped => ?_) fun _ => trivial
        match bumped with
        | .error _ => trivial
        | .ok _ => exact listens_flushEntries
    · exact ⟨trivial, fun _ => trivial⟩
  · exact ⟨trivial, fun _ => trivial⟩
  · exact ⟨trivial, fun _ => trivial⟩
  · exact ⟨trivial, fun _ => trivial⟩

theorem only_runHook {hook : Hook V} : (runHook I X C hook).Only Op.Inner := by
  cases hook with
  | before call result => exact reads_before.mono Op.Reads.inner
  | after call result =>
    have hafter : (after I X C call result).Only Op.Inner := by
      cases result with
      | query result => exact queries_afterQuery.mono Op.Queries.inner
      | exec result => exact drops_afterExec.mono Op.Drops.inner
    simp only [runHook, bind_eq, pure_eq]
    refine hafter.bind fun reply => ?_
    match reply with
    | .ok _ | .error _ => trivial
  | onEvent event =>
    simp only [runHook, bind_eq, pure_eq]
    exact (listens_onEvent.mono Op.Listens.inner).bind fun _ => trivial

/-! ### The programs of the tasks -/

section
variable {rule : Done V → Op V → Prop} {done : Done V}

theorem obeys_invoke_of_hook {hook : Hook V} (enter : rule done (.enter hook))
    (body : (runHook I X C hook).Obeys rule (fun reply after => rule after (.leave hook reply))
      (⟨.enter hook, ()⟩ :: done)) :
    (invoke I X C hook).Obeys rule (fun _ _ => True) done := by
  simp only [invoke, bind_eq, perform_bind, pure_eq]
  exact ⟨enter, fun _ => body.andThen fun _ _ ha _ => ⟨ha, fun _ => trivial⟩⟩

/-- A rule that is about the hook calls alone, and that each of them obeys. -/
theorem obeys_program_of_hooks {task : Task V} (enter : ∀ done hook, rule done (.enter hook))
    (query : ∀ done call, rule done (.databaseQuery call))
    (exec : ∀ done call, rule done (.databaseExec call))
    (hooks : ∀ hook done, (runHook I X C hook).Obeys rule
      (fun reply after => rule after (.leave hook reply)) (⟨.enter hook, ()⟩ :: done)) :
    (task.program I X C).Obeys rule (fun _ _ => True) done := by
  have invoked (hook : Hook V) (past : Done V) : (invoke I X C hook).Obeys rule (fun _ _ => True) past :=
    obeys_invoke_of_hook (enter past hook) (hooks hook past)
  cases task with
  | statement s =>
    cases s with
    | query call =>
      refine Prog.Obeys.andThen (Q := fun _ _ => True) ?_ fun _ _ _ _ => trivial
      simp only [RbatisCacheInterceptor.query, bind_eq, perform_bind, pure_eq]
      refine (invoked _ _).andThen fun reply _ _ _ => ?_
      match reply with
      | .error _ | .ok (.return _) => trivial
      | .ok .next =>
        refine ⟨query _ _, fun result => (invoked _ _).andThen fun reply _ _ _ => ?_⟩
        match reply with
        | .error _ | .ok _ => trivial
    | exec call =>
      refine Prog.Obeys.andThen (Q := fun _ _ => True) ?_ fun _ _ _ _ => trivial
      simp only [RbatisCacheInterceptor.exec, bind_eq, perform_bind, pure_eq]
      refine (invoked _ _).andThen fun reply _ _ _ => ?_
      match reply with
      | .error _ => trivial
      | .ok _ =>
        refine ⟨exec _ _, fun result => (invoked _ _).andThen fun reply _ _ _ => ?_⟩
        match reply with
        | .error _ | .ok _ => trivial
  | hook h => exact (invoked h done).andThen fun _ _ _ _ => trivial

end

private theorem bracketed_invoke {hook : Hook V} {done : Done V}
    (hd : bracket done (.enter hook)) :
    (invoke I X C hook).Obeys bracket (fun reply after => phase after = .left hook reply) done := by
  simp only [invoke, bind_eq, perform_bind, pure_eq]
  refine ⟨hd, fun _ => ?_⟩
  have hbody : (runHook I X C hook).Obeys bracket (fun _ after => phase after = .inside hook)
      (⟨.enter hook, ()⟩ :: done) :=
    only_runHook.obeys (fun _ _ hop hk => (bracket_of_inner hop).mpr ⟨hook, hk⟩)
      (fun _ _ r hop hk => (phase_cons_of_inner hop r).trans hk) rfl
  exact hbody.andThen fun reply after ha _ => ⟨ha, fun _ => rfl⟩

private theorem bracketed_query : (query I X C call).Obeys bracket (fun _ _ => True) [] := by
  simp only [query, bind_eq, perform_bind, pure_eq]
  refine (bracketed_invoke (show bracket [] (.enter (.before call _)) from rfl)).andThen
    fun reply before hb _ => ?_
  match reply with
  | .error _ | .ok (.return _) => trivial
  | .ok .next =>
    refine ⟨hb, fun result => ?_⟩
    have he : bracket (⟨.databaseQuery call, result⟩ :: before)
        (.enter (.after call (.query result))) := .inr rfl
    refine (bracketed_invoke he).andThen fun reply after _ _ => ?_
    match reply with
    | .error _ | .ok _ => trivial

private theorem bracketed_exec : (exec I X C call).Obeys bracket (fun _ _ => True) [] := by
  simp only [exec, bind_eq, perform_bind, pure_eq]
  refine (bracketed_invoke (show bracket [] (.enter (.before call _)) from rfl)).andThen
    fun reply before hb _ => ?_
  match reply with
  | .error _ => trivial
  | .ok action =>
    refine ⟨⟨action, hb⟩, fun result => ?_⟩
    have he : bracket (⟨.databaseExec call, result⟩ :: before)
        (.enter (.after call (.exec result))) := .inr rfl
    refine (bracketed_invoke he).andThen fun reply after _ _ => ?_
    match reply with
    | .error _ | .ok _ => trivial

theorem bracketed_program {task : Task V} :
    (task.program I X C).Obeys bracket (fun _ _ => True) [] := by
  cases task with
  | statement s =>
    cases s with
    | query call => exact bracketed_query.bind
    | exec call => exact bracketed_exec.bind
  | hook h =>
    have hd : bracket [] (.enter h) := by
      cases h with
      | before | onEvent => rfl
      | after => exact .inl rfl
    exact (bracketed_invoke hd).andThen fun _ _ _ _ => trivial

end

/-! ### Hook calls in histories -/

section
variable {V T : Type} [DecidableEq T]

/-- Every task keeps to its brackets. -/
abbrev Bracketed (h : History V T) : Prop := Lawful (fun _ => bracket) h

theorem reaches_bracketed {B : CacheBackend} {I : RbatisCacheInterceptor} {X : Externals Bytes}
    {C : ValueCodec V} {tasks : T → Task V} {state : B.State}
    {A : Restriction T (Op V) Op.Res (Choice B V) (World B V)}
    {d : Config T (Op V) Op.Res (World B V) (Reply V)}
    (run : Reaches (machine B V T I) A (initial I X C tasks state) d) : Bracketed d.history := by
  have hc : (initial I X C tasks state).Obeys (fun _ => bracket) fun _ _ _ => True :=
    fun _ => bracketed_program
  exact (run.lawful_of_obeys hc rfl).1

/-- How far a task has come in its statement. -/
def Phase.rank : Phase V → Nat
  | .idle => 0
  | .inside (.before _ _) => 1
  | .left (.before _ _) _ => 2
  | .performed => 3
  | .inside _ => 4
  | .left _ _ => 5

def Phase.Inside : Phase V → Prop
  | .inside _ => True
  | _ => False

/-- A statement comes to its end with its `before`, when that has answered or failed, or else with
its `after`. -/
def Phase.Final : Phase V → Prop
  | .left (.before _ (.query _)) (.ok .next) | .left (.before _ (.exec _)) (.ok _) => False
  | .left _ _ => True
  | _ => False

instance : ∀ p : Phase V, Decidable p.Final
  | .left (.before _ (.query _)) (.ok .next) | .left (.before _ (.exec _)) (.ok _) => .isFalse id
  | .left (.before _ (.query _)) (.ok (.return _)) | .left (.before _ (.query _)) (.error _)
  | .left (.before _ (.exec _)) (.error _) | .left (.after _ _) _ | .left (.onEvent _) _ =>
    .isTrue trivial
  | .idle | .inside _ | .performed => .isFalse id

instance : ∀ p : Phase V, Decidable p.Inside
  | .inside _ => .isTrue trivial
  | .idle | .left _ _ | .performed => .isFalse id

private theorem rank_le_of_bracket {done : Done V} {op : Op V} (hb : bracket done op) (r : op.Res) :
    (phase done).rank ≤ (phase (⟨op, r⟩ :: done)).rank := by
  match op with
  | .enter (.before _ _) | .enter (.onEvent _) =>
    have hd : phase done = .idle := hb
    simp [hd, Phase.rank]
  | .enter (.after _ _) =>
    have hd : phase done = .idle ∨ phase done = .performed := hb
    rcases hd with hd | hd <;> simp [hd, phase, Phase.rank]
  | .leave hook _ =>
    have hd : phase done = .inside hook := hb
    cases hook <;> simp [hd, phase, Phase.rank]
  | .databaseQuery _ =>
    have hd : phase done = _ := hb
    simp [hd, phase, Phase.rank]
  | .databaseExec _ =>
    obtain ⟨_, hd⟩ := hb
    simp [hd, phase, Phase.rank]
  | .backend _ | .nowMs | .instantNow | .record _ | .l1Lookup _ | .l1Replace _ _ _ | .l1Oldest
  | .l1Remove _ | .l1Insert _ _ _ | .l1Clear _ | .tryBeginLoad _ | .finishLoad _ _ | .removeLoad _
  | .loading _ | .notified _ | .awaitNotified _ _ | .pendingGet _ _ | .bufferPut _ _ _
  | .clearNamespace _ _ | .insertBuffer _ | .removeBuffer _ => exact le_rfl

variable {h s : History V T} {t : T}

theorem rank_mono (hb : Bracketed h) (hs : s <:+ h) :
    (phase (s.own t)).rank ≤ (phase (h.own t)).rank := by
  obtain ⟨g, rfl⟩ := hs
  induction g with
  | nil => exact le_rfl
  | cons e g ih =>
    have hbg : Bracketed (g ++ s) := hb.suffix (List.suffix_cons _ _)
    refine (ih hbg).trans ?_
    by_cases he : e.task = t
    · obtain ⟨x, op, r⟩ := e
      obtain rfl : x = t := he
      rw [List.cons_append, History.own_cons_self]
      exact rank_le_of_bracket (hb _ _ (List.suffix_refl _)) r
    · rw [List.cons_append, History.own_cons_ne he]

theorem rank_inside_le (hook : Hook V) : (Phase.inside hook).rank ≤ 4 := by
  cases hook <;> simp [Phase.rank]

/-- A task that has come no further is still inside the same hook call. -/
theorem inside_of_rank {hook : Hook V} {p : Phase V}
    (hr : p.rank = (Phase.inside hook).rank) : p.Inside := by
  match p with
  | .inside _ => trivial
  | .idle | .left (.before _ _) _ | .performed | .left (.after _ _) _ | .left (.onEvent _) _ =>
    cases hook <;> cases hr

/-- A hook call that has been entered goes on or has been left. -/
theorem left_of_entered (hb : Bracketed h) {hook : Hook V} (he : ⟨t, .enter hook, ()⟩ ∈ h) :
    phase (h.own t) = .inside hook ∨ ∃ reply, ⟨t, .leave hook reply, ()⟩ ∈ h := by
  induction h with
  | nil => cases he
  | cons e h ih =>
    obtain ⟨x, op, r⟩ := e
    have hbh : Bracketed h := hb.suffix (List.suffix_cons _ _)
    have grow (hl : ∃ reply, ⟨t, .leave hook reply, ()⟩ ∈ h) :
        ∃ reply, ⟨t, .leave hook reply, ()⟩ ∈ (⟨x, op, r⟩ : Event T (Op V) Op.Res) :: h := by
      obtain ⟨reply, hm⟩ := hl
      exact ⟨reply, List.mem_cons_of_mem _ hm⟩
    rcases List.mem_cons.mp he with he | he
    · cases he
      exact .inl (by rw [History.own_cons_self]; rfl)
    · refine (ih hbh he).elim (fun hin => ?_) fun hl => .inr (grow hl)
      by_cases hx : x = t
      · subst hx
        have hbr : bracket (History.own h x) op := hb _ _ (List.suffix_refl _)
        rw [History.own_cons_self]
        by_cases hop : op.Inner
        · exact .inl ((phase_cons_of_inner hop r).trans hin)
        · cases op with
          | enter other =>
            cases other with
            | before | onEvent =>
              have idle : phase (History.own h x) = .idle := hbr
              rw [hin] at idle
              cases idle
            | after =>
              have early : phase (History.own h x) = .idle ∨ phase (History.own h x) = .performed := hbr
              rw [hin] at early
              rcases early with early | early <;> cases early
          | leave other reply =>
            have inside : phase (History.own h x) = .inside other := hbr
            rw [hin] at inside
            cases inside
            exact .inr ⟨reply, List.mem_cons_self⟩
          | databaseQuery =>
            have left : phase (History.own h x) = .left _ _ := hbr
            rw [hin] at left
            cases left
          | databaseExec =>
            obtain ⟨_, left⟩ := hbr
            rw [hin] at left
            cases left
          | _ => exact absurd trivial hop
      · rw [History.own_cons_ne hx]
        exact .inl hin

/-- A task enters at most one `after`. -/
theorem after_unique (hb : Bracketed h) {call call' : Call V}
    {result result' : ResultType (Except String ExecResult) (Except String V)}
    (he : ⟨t, .enter (.after call result), ()⟩ ∈ h)
    (he' : ⟨t, .enter (.after call' result'), ()⟩ ∈ h) :
    (Hook.after call result) = .after call' result' := by
  obtain ⟨p, hp⟩ := History.exists_suffix_of_mem he
  obtain ⟨q, hq⟩ := History.exists_suffix_of_mem he'
  -- whoever has entered an `after` is too far to enter another one
  have late {hook hook' : ResultType (Except String ExecResult) (Except String V)}
      {c c' : Call V} {x y : History V T} (hx : ⟨t, .enter (.after c hook), ()⟩ :: x <:+ y)
      (hy : ⟨t, .enter (.after c' hook'), ()⟩ :: y <:+ h) : False := by
    have hrank := rank_mono (t := t) (hb.suffix ((List.suffix_cons _ _).trans hy)) hx
    rw [History.own_cons_self] at hrank
    have hbr : phase (y.own t) = .idle ∨ phase (y.own t) = .performed := hb _ _ hy
    rcases hbr with h | h <;> rw [h] at hrank <;> simp [phase, Phase.rank] at hrank
  rcases List.suffix_or_suffix_of_suffix hp hq with hs | hs
  · rcases List.suffix_cons_iff.mp hs with hs | hs
    · cases hs
      rfl
    · exact (late hs hq).elim
  · rcases List.suffix_cons_iff.mp hs with hs | hs
    · cases hs
      rfl
    · exact (late hs hp).elim

/-- Whoever has entered a hook call that is not a `before` is inside no other one. -/
theorem inside_of_entered (hb : Bracketed h) {hook other : Hook V} (he : ⟨t, .enter hook, ()⟩ ∈ h)
    (last : (Phase.inside hook).rank = 4) (hin : phase (h.own t) = .inside other) : other = hook := by
  rcases left_of_entered hb he with inside | ⟨reply, hl⟩
  · rw [hin] at inside
    cases inside
    rfl
  · obtain ⟨q, hq⟩ := History.exists_suffix_of_mem hl
    have hrank := rank_mono (t := t) hb hq
    rw [History.own_cons_self, hin] at hrank
    have late : 5 ≤ (Phase.inside other).rank := by
      cases hook with
      | before => cases last
      | after | onEvent => exact hrank
    have low := rank_inside_le other
    omega

omit [DecidableEq T] in
private theorem not_final_of_bracket {done : Done V} {op : Op V} (hb : bracket done op) :
    ¬ (phase done).Final := by
  intro hf
  match op with
  | .enter (.before _ _) | .enter (.onEvent _) =>
    rw [show phase done = .idle from hb] at hf
    cases hf
  | .enter (.after _ _) =>
    have hd : phase done = .idle ∨ phase done = .performed := hb
    rcases hd with hd | hd <;> rw [hd] at hf <;> cases hf
  | .leave hook _ =>
    rw [show phase done = .inside hook from hb] at hf
    cases hf
  | .databaseQuery _ =>
    rw [show phase done = _ from hb] at hf
    cases hf
  | .databaseExec _ =>
    obtain ⟨_, hd⟩ := hb
    rw [hd] at hf
    cases hf
  | .backend _ | .nowMs | .instantNow | .record _ | .l1Lookup _ | .l1Replace _ _ _ | .l1Oldest
  | .l1Remove _ | .l1Insert _ _ _ | .l1Clear _ | .tryBeginLoad _ | .finishLoad _ _ | .removeLoad _
  | .loading _ | .notified _ | .awaitNotified _ _ | .pendingGet _ _ | .bufferPut _ _ _
  | .clearNamespace _ _ | .insertBuffer _ | .removeBuffer _ =>
    obtain ⟨hook, hd⟩ := hb
    rw [hd] at hf
    cases hf

/-- A task that has come to its end does nothing more. -/
theorem own_of_final (hb : Bracketed h) (hs : s <:+ h) (hf : (phase (s.own t)).Final) :
    h.own t = s.own t := by
  obtain ⟨g, rfl⟩ := hs
  induction g with
  | nil => rfl
  | cons e g ih =>
    have hown := ih (hb.suffix (List.suffix_cons _ _))
    by_cases he : e.task = t
    · obtain ⟨x, op, r⟩ := e
      obtain rfl : x = t := he
      have hx : bracket (History.own (g ++ s) x) op := hb _ _ (List.suffix_refl _)
      rw [hown] at hx
      exact absurd hf (not_final_of_bracket hx)
    · rw [List.cons_append, History.own_cons_ne he, hown]

/-- Nobody enters a hook while a task is inside one. -/
def Alone (h : History V T) : Prop :=
  h.Always fun e s => e.op.isEnter = true → ∀ t, ¬ (phase (s.own t)).Inside

omit [DecidableEq T] in
private theorem inside_of_cons {done : Done V} {op : Op V} {r : op.Res} (hop : op.isEnter = false)
    (hin : (phase (⟨op, r⟩ :: done)).Inside) : (phase done).Inside := by
  cases op with
  | enter => cases hop
  | leave | databaseQuery | databaseExec => cases hin
  | _ => exact hin

private theorem solo (ha : Alone h) {u : T} (ht : (phase (h.own t)).Inside)
    (hu : (phase (h.own u)).Inside) : t = u := by
  induction h with
  | nil => cases ht
  | cons e h ih =>
    obtain ⟨x, op, r⟩ := e
    have back {y : T} (hop : op.isEnter = false)
        (hy : (phase (History.own (⟨x, op, r⟩ :: h) y)).Inside) : (phase (History.own h y)).Inside := by
      by_cases hx : x = y
      · subst hx
        rw [History.own_cons_self] at hy
        exact inside_of_cons hop hy
      · rwa [History.own_cons_ne hx] at hy
    cases hop : op.isEnter with
    | false => exact ih (ha.suffix (List.suffix_cons _ _)) (back hop ht) (back hop hu)
    | true =>
      -- nobody was inside before, so both are the task that has entered
      have self {y : T} (hy : (phase (History.own (⟨x, op, r⟩ :: h) y)).Inside) : x = y := by
        by_contra hx
        rw [History.own_cons_ne hx] at hy
        exact ha _ _ (List.suffix_refl _) hop y hy
      exact (self ht).symm.trans (self hu)

/-- While a task is inside a hook call, what the others do inside of theirs they have done before it
entered. -/
theorem suffix_of_inside (hb : Bracketed h) (ha : Alone h) {hook hook' : Hook V} {p q : History V T}
    {x : Event T (Op V) Op.Res} (he : ⟨t, .enter hook, ()⟩ :: p <:+ h)
    (hin : phase (h.own t) = .inside hook')
    (hr : (Phase.inside hook').rank = (Phase.inside hook).rank) (hx : x :: q <:+ h)
    (hop : x.op.Inner) (hne : x.task ≠ t) : x :: q <:+ p := by
  rcases List.suffix_or_suffix_of_suffix he hx with hs | hs
  · exfalso
    rcases List.suffix_cons_iff.mp hs with hs | hs
    · cases hs
      exact hne rfl
    · have hq := (List.suffix_cons _ _).trans hx
      have hlow := rank_mono (t := t) (hb.suffix hq) hs
      have hhigh := rank_mono (t := t) hb hq
      rw [History.own_cons_self] at hlow
      rw [hin, hr] at hhigh
      have hmid : (phase (History.own q t)).Inside := inside_of_rank (hhigh.antisymm hlow)
      obtain ⟨other, ho⟩ := (bracket_of_inner hop).mp (hb _ _ hx)
      have hother : (phase (History.own q x.task)).Inside := by
        rw [ho]
        trivial
      exact hne (solo (ha.suffix hq) hother hmid)
  · rcases List.suffix_cons_iff.mp hs with hs | hs
    · cases hs
      exact absurd rfl hne
    · exact hs

end
end RbatisCache.RbatisInterceptor
