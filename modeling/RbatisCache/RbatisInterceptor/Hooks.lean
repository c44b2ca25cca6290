import RbatisCache.RbatisInterceptor.Brackets

/-! What one hook call does, in its own terms: for every operation that touches the caches, what
its task has read and been handed before. -/
namespace RbatisCache.RbatisInterceptor
open Interleaving
open Interleaving.Prog (perform bind_eq perform_bind pure_eq ret_bind call_bind Obeys)
open RbatisCacheInterceptor

section
variable {V : Type}

def Entered (hook : Hook V) (done : Done V) : Prop := ⟨.enter hook, ()⟩ ∈ done

variable (I : RbatisCacheInterceptor) (X : Externals Bytes) (C : ValueCodec V)

/-- A key under which the `before` of a query looks into the caches. -/
structure LooksUp (call : Call V) (key : CacheKey) (done : Done V) : Prop where
  inside : phase done = .inside (.before call (.query ()))
  cacheable : isCacheable I X call.sql = true
  permitted : ¬ (call.rb.isInTransaction = true ∧ I.policy.transactionMode = .bypass)
  read : ⟨.backend (.generation I.nameSpace), .ok key.generation⟩ ∈ done
  built : CacheKey.build X (buildKeyInput I C call) key.generation = .ok key

/-- The key that the `after` of a query has resolved. -/
structure Resolved (call : Call V) (result : Except String V) (key : CacheKey) (done : Done V) :
    Prop where
  read : ∃ rest, ⟨.backend (.generation I.nameSpace), .ok key.generation⟩ ::
    ⟨.enter (.after call (.query result)), ()⟩ :: rest <:+ done
  cacheable : isCacheable I X call.sql = true
  built : CacheKey.build X (buildKeyInput I C call) key.generation = .ok key

/-- The backend returned an envelope of the key's generation that holds the value. -/
inductive Found (key : CacheKey) (v : V) (done : Done V) : Prop
  | mk {bytes : Bytes} {envelope : CacheEnvelope Bytes}
      (got : ⟨.backend (.get key.digest), .ok (some bytes)⟩ ∈ done)
      (decoded : CacheEnvelope.decode X bytes = .ok envelope)
      (generation : envelope.generation = key.generation)
      (value : C.fromSlice envelope.payload = .ok v)

/-- The bytes are an envelope for the value under the key. -/
def Encodes (key : CacheKey) (v : V) (bytes : Bytes) : Prop :=
  ∃ payload ttl now, C.toVecNamed v = .ok payload ∧
    (CacheEnvelope.new key payload ttl now).encode X = .ok bytes

/-- Where a query takes the value from that its `before` returns. -/
inductive Answered (call : Call V) (v : V) (done : Done V) : Prop
  | buffered {key : CacheKey} (entered : Entered (.before call (.query ())) done)
      (transaction : call.rb.isInTransaction = true)
      (mode : I.policy.transactionMode = .defer)
      (built : CacheKey.build X (buildKeyInput I C call) 0 = .ok key)
      (got : ⟨.pendingGet call.taskId key.digest, some v⟩ ∈ done)
  | l1 {key : CacheKey} (looks : LooksUp I X C call key done)
      (got : ⟨.l1Lookup call.rb.id, .live v⟩ ∈ done)
  | l2 {key : CacheKey} (looks : LooksUp I X C call key done) (found : Found X C key v done)

/-- Where a value comes from that is put into the first-level cache. -/
inductive Fills (executorId : Int) (digest : String) (v : V) (done : Done V) : Prop
  | promoted {call : Call V} {key : CacheKey} (looks : LooksUp I X C call key done)
      (executor : call.rb.id = executorId) (digest_eq : key.digest = digest)
      (found : Found X C key v done)
  | loaded {call : Call V} {key : CacheKey} (resolved : Resolved I X C call (.ok v) key done)
      (executor : call.rb.id = executorId) (digest_eq : key.digest = digest)

/-- Where bytes come from that are put into the backend. -/
inductive Stores (digest : String) (bytes : Bytes) (done : Done V) : Prop
  | loaded {call : Call V} {key : CacheKey} {v : V} (resolved : Resolved I X C call (.ok v) key done)
      (digest_eq : key.digest = digest) (encodes : Encodes X C key v bytes)
  | flushed {txId : Int} {buffer : TransactionalCacheBuffer V} {key : CacheKey} {v : V}
      (removed : ⟨.removeBuffer txId, some buffer⟩ ∈ done) (holds : buffer.Holds key v)
      (digest_eq : key.digest = digest) (encodes : Encodes X C key v bytes)

/-- A DML whose `after` invalidates. -/
structure Dml (call : Call V) (done : Done V) : Prop where
  entered : ∃ er, Entered (.after call (.exec (.ok er))) done ∧ 0 < er.rowsAffected

/-- Who bumps a generation. -/
inductive Bumps (nameSpace : String) (done : Done V) : Prop
  | exec {call : Call V} (dml : Dml call done) (outside : call.rb.isInTransaction = false)
      (cleared : ⟨.l1Clear call.rb.id, ()⟩ ∈ done) (own : nameSpace = I.nameSpace)
  | commit {event : TransactionEvent} (entered : Entered (.onEvent event) done)

/-- When a task makes which hook calls. -/
def Task.Enters (hook : Hook V) (done : Done V) : Task V → Prop
  | .statement (.query call) => hook = .before call (.query ()) ∧ done = [] ∨
      ∃ result rest, hook = .after call (.query result) ∧
        done = ⟨.databaseQuery call, result⟩ :: rest
  | .statement (.exec call) => hook = .before call (.exec ()) ∧ done = [] ∨
      ∃ result rest, hook = .after call (.exec result) ∧
        done = ⟨.databaseExec call, result⟩ :: rest
  | .hook h => hook = h ∧ done = []

def Hook.call : Hook V → Option (Call V)
  | .before call _ | .after call _ => some call
  | .onEvent _ => none

/-- The call that all hook calls of a task are about. -/
def Task.call : Task V → Option (Call V)
  | .statement (.query call) | .statement (.exec call) => some call
  | .hook h => h.call

/-- Whether a hook call is about a query. -/
def Hook.isQuery : Hook V → Bool
  | .before _ (.query _) | .after _ (.query _) => true
  | _ => false

def Task.isQuery : Task V → Bool
  | .statement (.query _) => true
  | .statement (.exec _) => false
  | .hook h => h.isQuery

/-- What a task has made sure of before each operation. -/
def rule (task : Task V) (done : Done V) : Op V → Prop
  | .enter hook => task.Enters hook done
  | .leave (.before call (.query _)) (.ok (.return v)) => Answered I X C call v done
  | .leave (.after call (.exec (.ok er))) reply =>
    (0 < er.rowsAffected → ⟨.l1Clear call.rb.id, ()⟩ ∈ done) ∧ ∀ v, reply ≠ .ok (.return v)
  | .leave (.before _ (.exec _)) (.ok (.return _)) | .leave (.after _ _) (.ok (.return _))
  | .leave (.onEvent _) (.ok (.return _)) => False
  | .backend (.generation n) => n = I.nameSpace
  | .backend (.get k) => ∃ call key, LooksUp I X C call key done ∧ key.digest = k
  | .backend (.put k bytes _) => Stores I X C k bytes done
  | .backend (.bumpGeneration n) => Bumps I n done
  | .l1Lookup e => ∃ call key, LooksUp I X C call key done ∧ call.rb.id = e
  | .l1Replace e d entry | .l1Insert e d entry => Fills I X C e d entry.value done
  | .l1Remove _ => (∃ call key, LooksUp I X C call key done) ∨
      ∃ call v key, Resolved I X C call (.ok v) key done
  | .l1Clear e => ∃ call, Dml call done ∧ call.rb.id = e
  | .tryBeginLoad _ => ∃ call key, LooksUp I X C call key done
  | .finishLoad _ _ | .removeLoad _ => ∃ call result key, Resolved I X C call result key done
  | .pendingGet txId d => ∃ call key, call.rb.isInTransaction = true ∧
      I.policy.transactionMode = .defer ∧ Entered (.before call (.query ())) done ∧
      CacheKey.build X (buildKeyInput I C call) 0 = .ok key ∧ call.taskId = txId ∧ key.digest = d
  | .bufferPut txId key v => ∃ call, Resolved I X C call (.ok v) key done ∧
      call.rb.isInTransaction = true ∧ I.policy.transactionMode = .defer ∧ call.taskId = txId
  | .clearNamespace txId _ => ∃ call, Dml call done ∧ call.rb.isInTransaction = true ∧
      I.policy.transactionMode = .defer ∧ call.taskId = txId
  | .insertBuffer txId => I.policy.transactionMode = .defer ∧
      Entered (.onEvent ⟨.begin, txId⟩) done
  | .removeBuffer txId => ∃ event, Entered (.onEvent event) done ∧ event.txId = txId
  | .databaseQuery call => task = .statement (.query call)
  | .databaseExec call => task = .statement (.exec call)
  | _ => True

variable {I X C}

theorem entered_of_inside {hook : Hook V} {done : Done V} (h : phase done = .inside hook) :
    Entered hook done := by
  induction done with
  | nil => cases h
  | cons e done ih =>
    obtain ⟨op, r⟩ := e
    cases op with
    | enter other =>
      cases h
      exact List.mem_cons_self
    | leave | databaseQuery | databaseExec => cases h
    | _ => exact List.mem_cons_of_mem _ (ih h)

theorem Entered.grow {hook : Hook V} {done later : Done V} (h : Entered hook done)
    (hl : done <:+ later) : Entered hook later := hl.subset h

theorem LooksUp.entered {call : Call V} {key : CacheKey} {done : Done V}
    (h : LooksUp I X C call key done) : Entered (.before call (.query ())) done :=
  entered_of_inside h.inside

theorem LooksUp.grow {call : Call V} {key : CacheKey} {done later : Done V}
    (h : LooksUp I X C call key done) (hl : Continues done later) : LooksUp I X C call key later :=
  ⟨hl.2.trans h.inside, h.cacheable, h.permitted, hl.1.subset h.read, h.built⟩

theorem Resolved.grow {call : Call V} {result : Except String V} {key : CacheKey}
    {done later : Done V} (h : Resolved I X C call result key done) (hl : done <:+ later) :
    Resolved I X C call result key later := by
  obtain ⟨⟨rest, hr⟩, hc, hb⟩ := h
  exact ⟨⟨rest, hr.trans hl⟩, hc, hb⟩

theorem Found.grow {key : CacheKey} {v : V} {done later : Done V} (h : Found X C key v done)
    (hl : done <:+ later) : Found X C key v later := by
  obtain ⟨got, decoded, generation, value⟩ := h
  exact ⟨hl.subset got, decoded, generation, value⟩

theorem Fills.grow {e : Int} {d : String} {v : V} {done later : Done V}
    (h : Fills I X C e d v done) (hl : Continues done later) : Fills I X C e d v later := by
  cases h with
  | promoted looks executor digest_eq found =>
    exact .promoted (looks.grow hl) executor digest_eq (found.grow hl.1)
  | loaded resolved executor digest_eq => exact .loaded (resolved.grow hl.1) executor digest_eq

theorem Fills.keyed {e : Int} {d : String} {v : V} {done : Done V} (h : Fills I X C e d v done) :
    (∃ call key, LooksUp I X C call key done) ∨
      ∃ call v key, Resolved I X C call (.ok v) key done := by
  cases h with
  | promoted looks => exact .inl ⟨_, _, looks⟩
  | loaded resolved => exact .inr ⟨_, _, _, resolved⟩

theorem Resolved.entered {call : Call V} {result : Except String V} {key : CacheKey}
    {done : Done V} (h : Resolved I X C call result key done) :
    Entered (.after call (.query result)) done := by
  obtain ⟨⟨rest, hr⟩, -, -⟩ := h
  exact hr.subset (by simp)

theorem Answered.entered {call : Call V} {v : V} {done : Done V} (h : Answered I X C call v done) :
    Entered (.before call (.query ())) done := by
  cases h with
  | buffered entered => exact entered
  | l1 looks => exact looks.entered
  | l2 looks => exact looks.entered

/-! ### The programs obey -/

variable {task : Task V} {done : Done V} {call : Call V} {key : CacheKey}

private theorem suffix_cons (e : Sigma (Op.Res (V := V))) (done : Done V) : done <:+ e :: done :=
  List.suffix_cons e done

private theorem obeys_resolveKey :
    (resolveKey I X (buildKeyInput I C call)).Obeys (rule I X C task)
      (fun a after => ∀ key, a = .ok key →
        after = ⟨.backend (.generation I.nameSpace), .ok key.generation⟩ :: done ∧
        CacheKey.build X (buildKeyInput I C call) key.generation = .ok key) done := by
  unfold resolveKey
  simp only [bind_eq, perform_bind, pure_eq]
  refine ⟨rfl, fun result => ?_⟩
  match result with
  | .ok g =>
    intro key hk
    have built := CacheKey.build_of_mapError hk
    obtain rfl := CacheKey.build_generation built
    exact ⟨rfl, built⟩
  | .error e =>
    dsimp only
    split
    · exact ⟨trivial, fun _ => nofun⟩
    · exact nofun

/-- The key that has been resolved, and the read that it comes from. -/
theorem ensures_key : (resolveKey I X (buildKeyInput I C call)).Ensures
    (fun a after => ∀ key, a = .ok key →
      after = ⟨.backend (.generation I.nameSpace), .ok key.generation⟩ :: done ∧
      CacheKey.build X (buildKeyInput I C call) key.generation = .ok key) done :=
  (obeys_resolveKey : Obeys (rule I X C (.statement (.query call))) _ _ _).weaken fun _ _ _ => trivial

private theorem obeys_l1Get (hk : LooksUp I X C call key done) :
    (l1Get call.rb.id : Code V _).Obeys (rule I X C task)
      (fun a after => ∀ v, a = some v → ⟨.l1Lookup call.rb.id, .live v⟩ ∈ after) done := by
  unfold l1Get
  simp only [bind_eq, perform_bind, pure_eq]
  refine ⟨⟨call, key, hk, rfl⟩, fun result => ?_⟩
  match result with
  | .absent => exact nofun
  | .expired => exact ⟨.inl ⟨call, key, hk.grow (.step _ _ _ trivial)⟩, fun _ => nofun⟩
  | .live w =>
    intro v hv
    cases hv
    exact List.mem_cons_self

private theorem obeys_l1Put {e : Int} {d : String} {v : V} (hf : Fills I X C e d v done) :
    (l1Put I e d v).Obeys (rule I X C task) (fun _ _ => True) done := by
  unfold l1Put
  simp only [bind_eq, perform_bind, pure_eq]
  refine ⟨trivial, fun now => ?_⟩
  have hf1 := hf.grow (.step done .instantNow now trivial)
  refine ⟨hf1, fun replaced => ?_⟩
  have hf2 := hf1.grow (.step _ (.l1Replace e d ⟨v, now + I.policy.ttl.nanos⟩) replaced trivial)
  match replaced with
  | true => trivial
  | false =>
    refine ⟨trivial, fun oldest => ?_⟩
    have hf3 := hf2.grow (.step _ .l1Oldest oldest trivial)
    match oldest with
    | none => exact ⟨hf3, fun _ => trivial⟩
    | some o => exact ⟨hf3.keyed, fun _ => ⟨hf3.grow (.step _ _ _ trivial), fun _ => trivial⟩⟩

/-- A lookup that returns a value has found it. -/
theorem obeys_lookupValue (hk : LooksUp I X C call key done) :
    (lookupValue I X C call.rb.id key).Obeys (rule I X C task)
      (fun a after => ∀ v, a = .ok (some v) →
        ⟨.l1Lookup call.rb.id, .live v⟩ ∈ after ∨ Found X C key v after) done := by
  unfold lookupValue
  simp only [bind_eq, pure_eq]
  refine obeys_bind_inside (obeys_l1Get hk) (local_l1Get.mono Op.Local.inner) fun a checked ha hc => ?_
  have hk1 := hk.grow hc
  match a with
  | some v =>
    simp only [perform_bind]
    refine ⟨trivial, fun _ u hu => .inl ?_⟩
    cases hu
    exact List.mem_cons_of_mem _ (ha v rfl)
  | none =>
    simp only [perform_bind]
    refine ⟨⟨call, key, hk1, rfl⟩, fun result => ?_⟩
    have hk2 := hk1.grow (.step checked (.backend (.get key.digest)) result trivial)
    match result with
    | .ok none => exact ⟨trivial, fun _ => nofun⟩
    | .error e =>
      refine ⟨trivial, fun _ => ?_⟩
      dsimp only
      split
      · exact nofun
      · exact nofun
    | .ok (some bytes) =>
      dsimp only
      split
      · exact ⟨trivial, fun _ => nofun⟩
      · next envelope hd =>
        refine ⟨trivial, fun now => ?_⟩
        have hk3 := hk2.grow (.step _ .nowMs now trivial)
        dsimp only
        cases hv : C.fromSlice envelope.payload with
        | error e =>
          dsimp only
          split
          · exact nofun
          · exact ⟨trivial, fun _ => nofun⟩
        | ok v =>
          dsimp only
          split
          · next hfresh =>
            refine ⟨trivial, fun _ => ?_⟩
            have hk4 := hk3.grow (.step _ (.record .hit) () trivial)
            have hfound : Found X C key v (⟨.record .hit, ()⟩ :: ⟨.nowMs, now⟩ ::
                ⟨.backend (.get key.digest), .ok (some bytes)⟩ :: checked) :=
              ⟨by simp, hd, CacheEnvelope.isFresh_generation hfresh, hv⟩
            refine (obeys_l1Put (.promoted hk4 rfl rfl hfound)).andThen fun _ filled _ hf u hu => ?_
            cases hu
            exact .inr (hfound.grow hf)
          · exact ⟨trivial, fun _ => nofun⟩

private theorem obeys_storeValue {v : V} {ttl : Duration}
    (hr : Resolved I X C call (.ok v) key done) :
    (storeValue I X C key v ttl).Obeys (rule I X C task) (fun _ _ => True) done := by
  unfold storeValue
  simp only [bind_eq, perform_bind, pure_eq]
  cases hp : C.toVecNamed v with
  | error e => trivial
  | ok payload =>
    dsimp only
    split
    · trivial
    · refine ⟨trivial, fun now => ?_⟩
      dsimp only
      cases he : (CacheEnvelope.new key payload ttl now).encode X with
      | error e => trivial
      | ok bytes =>
        refine ⟨.loaded (hr.grow (suffix_cons _ _)) rfl ⟨payload, ttl, now, hp, he⟩, fun result => ?_⟩
        match result with
        | .ok _ => trivial
        | .error e =>
          refine ⟨trivial, fun _ => ?_⟩
          dsimp only
          split
          · trivial
          · trivial

private theorem obeys_completeLoad {result : Except String V} {d : String} {success : Bool}
    (hr : Resolved I X C call result key done) :
    (completeLoad d success).Obeys (rule I X C task) (fun _ _ => True) done := by
  unfold completeLoad
  simp only [bind_eq, perform_bind, pure_eq]
  refine ⟨⟨call, result, key, hr⟩, fun found => ?_⟩
  match found with
  | true => exact ⟨⟨call, result, key, hr.grow (suffix_cons _ _)⟩, fun _ => trivial⟩
  | false => trivial

private theorem obeys_wait {load : LoadId} :
    (wait load : Code V Unit).Obeys (rule I X C task) (fun _ _ => True) done := by
  unfold wait
  simp only [bind_eq, perform_bind, pure_eq]
  refine ⟨trivial, fun loading => ?_⟩
  match loading with
  | true => exact ⟨trivial, fun _ => ⟨trivial, fun _ => trivial⟩⟩
  | false => trivial

/-- What lets a `before` look into the shared caches. -/
structure MayLookUp (I : RbatisCacheInterceptor) (X : Externals Bytes) (call : Call V)
    (done : Done V) : Prop where
  inside : phase done = .inside (.before call (.query ()))
  cacheable : isCacheable I X call.sql = true
  permitted : ¬ (call.rb.isInTransaction = true ∧ I.policy.transactionMode = .bypass)

theorem MayLookUp.grow {later : Done V} (h : MayLookUp I X call done) (hl : Continues done later) :
    MayLookUp I X call later := ⟨hl.2.trans h.inside, h.cacheable, h.permitted⟩

theorem MayLookUp.looksUp (h : MayLookUp I X call done)
    (built : CacheKey.build X (buildKeyInput I C call) key.generation = .ok key) :
    LooksUp I X C call key
      (⟨.backend (.generation I.nameSpace), .ok key.generation⟩ :: done) :=
  ⟨h.inside, h.cacheable, h.permitted, List.mem_cons_self, built⟩

theorem LooksUp.answered {v : V} (hk : LooksUp I X C call key done)
    (h : ⟨.l1Lookup call.rb.id, .live v⟩ ∈ done ∨ Found X C key v done) :
    Answered I X C call v done := by
  rcases h with got | found
  · exact .l1 hk got
  · exact .l2 hk found

/-- Every election is preceded by a lookup, and so is every answer. -/
theorem obeys_singleflightLoop {d : String} {remaining : Nat} (hk : LooksUp I X C call key done) :
    (singleflightLoop I X C call d remaining).Obeys (rule I X C task)
      (fun a after => ∀ v, a = .ok (.return v) → Answered I X C call v after) done := by
  induction remaining generalizing done key with
  | zero => exact nofun
  | succ remaining ih =>
    simp only [singleflightLoop, bind_eq, perform_bind, pure_eq]
    refine ⟨⟨call, key, hk⟩, fun role => ?_⟩
    match role with
    | .leader => exact nofun
    | .follower load =>
      dsimp only
      split
      · exact nofun
      · have hm : MayLookUp I X call (⟨.tryBeginLoad d, .follower load⟩ :: done) :=
          ⟨hk.inside, hk.cacheable, hk.permitted⟩
        refine obeys_bind_inside obeys_wait (local_wait.mono Op.Local.inner) fun _ waited _ hw => ?_
        refine obeys_resolveKey.andThen fun a resolved ha _ => ?_
        match a with
        | .error e => exact nofun
        | .ok found =>
          obtain ⟨rfl, hb⟩ := ha found rfl
          have hf := (hm.grow hw).looksUp hb
          refine obeys_bind_inside (obeys_lookupValue hf) (reads_lookupValue.mono Op.Reads.inner)
            fun a looked hl hg => ?_
          match a with
          | .error e => exact nofun
          | .ok (some v) =>
            intro u hu
            cases hu
            exact (hf.grow hg).answered (hl v rfl)
          | .ok none => exact ih (hf.grow hg)

private theorem obeys_beforeLookup (hm : MayLookUp I X call done) :
    (beforeLookup I X C call).Obeys (rule I X C task)
      (fun a after => ∀ v, a = .ok (.return v) → Answered I X C call v after) done := by
  unfold beforeLookup
  simp only [bind_eq, pure_eq]
  refine obeys_resolveKey.andThen fun a resolved ha hr => ?_
  match a with
  | .error e =>
    dsimp only
    split
    · exact nofun
    · exact nofun
  | .ok key =>
    obtain ⟨rfl, hb⟩ := ha key rfl
    have hk : LooksUp I X C call key _ := hm.looksUp hb
    refine obeys_bind_inside (obeys_lookupValue hk) (reads_lookupValue.mono Op.Reads.inner)
      fun a looked hl hg => ?_
    match a with
    | .error e => exact nofun
    | .ok (some v) =>
      intro u hu
      cases hu
      exact (hk.grow hg).answered (hl v rfl)
    | .ok none =>
      dsimp only
      split
      · exact obeys_singleflightLoop (hk.grow hg)
      · exact nofun

private theorem obeys_bufferedValue (he : Entered (.before call (.query ())) done) :
    (bufferedValue I X C call).Obeys (rule I X C task)
      (fun a after => ∀ v, a = some v → Answered I X C call v after) done := by
  unfold bufferedValue
  simp only [pure_eq]
  split
  · next hd =>
    simp only [Bool.and_eq_true, beq_iff_eq] at hd
    split
    · next key hb =>
      refine ⟨⟨call, key, hd.1, hd.2, he, hb, rfl, rfl⟩, fun result v hv => ?_⟩
      cases hv
      exact .buffered (he.grow (suffix_cons _ _)) hd.1 hd.2 hb List.mem_cons_self
    · exact nofun
  · exact nofun

private theorem obeys_before (hin : phase done = .inside (.before call (.query ()))) :
    (before I X C call (.query ())).Obeys (rule I X C task)
      (fun a after => ∀ v, a = .ok (.return v) → Answered I X C call v after) done := by
  unfold before
  simp only [bind_eq, pure_eq]
  split
  · exact nofun
  · next hc =>
    refine obeys_bind_inside (obeys_bufferedValue (entered_of_inside hin))
      (local_bufferedValue.mono Op.Local.inner) fun a buffered ha hb => ?_
    match a with
    | some v =>
      intro u hu
      cases hu
      exact ha v rfl
    | none =>
      dsimp only
      split
      · exact nofun
      · next hp =>
        refine obeys_beforeLookup ⟨hb.2.trans hin, by simpa using hc, fun ⟨htx, hmode⟩ => hp ?_⟩
        simp [htx, hmode]

private theorem obeys_afterStore {v : V} (hr : Resolved I X C call (.ok v) key done) :
    (afterStore I X C call key v).Obeys (rule I X C task) (fun _ _ => True) done := by
  unfold afterStore
  simp only [bind_eq, perform_bind, pure_eq]
  split
  · trivial
  · split
    · next hd =>
      simp only [Bool.and_eq_true, beq_iff_eq] at hd
      refine ⟨⟨call, hr, hd.1, hd.2, rfl⟩, fun buffered => ?_⟩
      match buffered with
      | true => trivial
      | false => exact obeys_storeValue (hr.grow (suffix_cons _ _))
    · exact obeys_storeValue hr

private theorem obeys_afterQuery {result : Except String V} {rest : Done V}
    (hd : done = ⟨.enter (.after call (.query result)), ()⟩ :: rest) :
    (afterQuery I X C call result).Obeys (rule I X C task) (fun _ _ => True) done := by
  unfold afterQuery
  simp only [bind_eq, pure_eq]
  split
  · trivial
  · next hc =>
    refine obeys_resolveKey.andThen fun a resolved ha _ => ?_
    match a with
    | .error e => trivial
    | .ok key =>
      obtain ⟨rfl, hb⟩ := ha key rfl
      have hr : Resolved I X C call result key
          (⟨.backend (.generation I.nameSpace), .ok key.generation⟩ :: done) :=
        ⟨⟨rest, by rw [hd]⟩, by simpa using hc, hb⟩
      refine (obeys_completeLoad hr).andThen fun _ completed _ hg => ?_
      match result with
      | .error e => trivial
      | .ok v =>
        refine (obeys_l1Put (.loaded (hr.grow hg) rfl rfl)).andThen fun _ filled _ hf => ?_
        exact obeys_afterStore ((hr.grow hg).grow hf)

/-- An `after` of a DML has cleared the slot of its executor. -/
theorem obeys_afterExec {result : Except String ExecResult}
    (he : Entered (.after call (.exec result)) done) :
    (afterExec I call result).Obeys (rule I X C task) (fun _ after => ∀ er, result = .ok er →
      0 < er.rowsAffected → ⟨.l1Clear call.rb.id, ()⟩ ∈ after) done := by
  match result with
  | .error e => exact nofun
  | .ok er =>
    unfold afterExec
    simp only [bind_eq, perform_bind, pure_eq]
    split
    · next hrows =>
      have hd : Dml call done := ⟨er, he, hrows⟩
      refine ⟨⟨call, hd, rfl⟩, fun _ => ?_⟩
      obtain ⟨er, he, hrows⟩ := hd
      have hd' : Dml call (⟨.l1Clear call.rb.id, ()⟩ :: done) :=
        ⟨er, he.grow (suffix_cons _ _), hrows⟩
      split
      · next htx =>
        split
        · next hmode =>
          exact ⟨⟨call, hd', htx, by simpa using hmode, rfl⟩, fun _ _ _ _ => by simp⟩
        · exact fun _ _ _ => by simp
      · next htx =>
        unfold invalidate
        simp only [bind_eq, perform_bind, pure_eq]
        refine ⟨.exec hd' (by simpa using htx) List.mem_cons_self rfl, fun bumped => ?_⟩
        match bumped with
        | .ok _ => exact ⟨trivial, fun _ _ _ _ => by simp⟩
        | .error e =>
          refine ⟨trivial, fun _ => ?_⟩
          dsimp only
          split
          · exact fun _ _ _ => by simp
          · exact fun _ _ _ => by simp
    · next hrows =>
      intro er' he' hr'
      cases he'
      exact absurd hr' hrows

/-! ### The listener -/

private theorem obeys_flushNamespaces {event : TransactionEvent} {nameSpaces : List String}
    (he : Entered (.onEvent event) done) :
    (flushNamespaces nameSpaces).Obeys (rule I X C task) (fun _ _ => True) done := by
  induction nameSpaces generalizing done with
  | nil => trivial
  | cons n rest ih =>
    simp only [flushNamespaces, bind_eq, perform_bind, pure_eq]
    refine ⟨.commit he, fun result => ?_⟩
    cases result with
    | error => trivial
    | ok => exact ih (he.grow (suffix_cons _ _))

private theorem obeys_flushEntries {txId : Int} {buffer : TransactionalCacheBuffer V} {ttl : Duration}
    {entries : List (CacheKey × V)} (removed : ⟨.removeBuffer txId, some buffer⟩ ∈ done)
    (held : ∀ key v, (key, v) ∈ entries → buffer.Holds key v) :
    (flushEntries X C ttl entries).Obeys (rule I X C task) (fun _ _ => True) done := by
  refine (obeys_flushes (K := fun past => ⟨.removeBuffer txId, some buffer⟩ ∈ past) ?_ ?_ ?_
    removed).mono fun _ _ _ => trivial
  · exact fun _ _ _ _ h => List.mem_cons_of_mem _ h
  · exact fun _ _ => trivial
  · intro past key v payload now bytes hm h encoded sealed
    exact .flushed (List.mem_cons_of_mem _ h) (held key v hm) rfl ⟨payload, ttl, now, encoded, sealed⟩

private theorem obeys_flushTo {event : TransactionEvent} {txId : Int}
    {buffer : TransactionalCacheBuffer V}
    (he : Entered (.onEvent event) done) (removed : ⟨.removeBuffer txId, some buffer⟩ ∈ done) :
    (flushTo X C buffer).Obeys (rule I X C task) (fun _ _ => True) done := by
  unfold flushTo
  simp only [bind_eq, pure_eq]
  refine (obeys_flushNamespaces he).andThen fun a bumped _ hg => ?_
  match a with
  | .error e => trivial
  | .ok _ =>
    exact obeys_flushEntries (hg.subset removed) fun _ _ =>
      TransactionalCacheBuffer.holds_of_mem_entries

private theorem obeys_onEvent {event : TransactionEvent} (he : Entered (.onEvent event) done) :
    (onEvent I X C event).Obeys (rule I X C task) (fun _ _ => True) done := by
  obtain ⟨type, txId⟩ := event
  unfold onEvent
  simp only [bind_eq, perform_bind, pure_eq]
  cases type with
  | begin =>
    dsimp only
    split
    · next hm => exact ⟨⟨by simpa using hm, he⟩, fun _ => trivial⟩
    · trivial
  | commitSuccess =>
    dsimp only
    split
    · refine ⟨⟨_, he, rfl⟩, fun result => ?_⟩
      match result with
      | none => trivial
      | some buffer =>
        exact (obeys_flushTo (he.grow (suffix_cons _ _)) List.mem_cons_self).andThen
          fun _ _ _ _ => trivial
    · exact ⟨.commit he, fun _ => trivial⟩
  | commitFailed => exact ⟨⟨_, he, rfl⟩, fun _ => trivial⟩
  | rollback => exact ⟨⟨_, he, rfl⟩, fun _ => trivial⟩
  | rollbackFailed => exact ⟨⟨_, he, rfl⟩, fun _ => trivial⟩

/-! ### Hook calls and statements -/

/-- A hook call returns a value only from a `before`, and only one it has found. -/
theorem obeys_runHook {hook : Hook V} {rest : Done V} (hd : done = ⟨.enter hook, ()⟩ :: rest) :
    (runHook I X C hook).Obeys (rule I X C task)
      (fun reply after => rule I X C task after (.leave hook reply)) done := by
  have he : Entered hook done := by
    rw [hd]
    exact List.mem_cons_self
  cases hook with
  | before call result =>
    cases result with
    | exec _ => trivial
    | query _ =>
      refine (obeys_before (by rw [hd]; rfl)).mono fun reply after hr => ?_
      match reply with
      | .ok (.return v) => exact hr v rfl
      | .ok .next | .error _ => trivial
  | after call result =>
    unfold runHook
    simp only [bind_eq, pure_eq]
    have hafter : (after I X C call result).Obeys (rule I X C task) (fun _ after =>
        ∀ reply, (∀ v, reply ≠ .ok (.return v)) →
          rule I X C task after (.leave (.after call result) reply)) done := by
      match result with
      | .query result =>
        refine (obeys_afterQuery hd).mono fun _ _ _ reply hreply => ?_
        match reply with
        | .ok (.return v) => exact absurd rfl (hreply v)
        | .ok .next | .error _ => trivial
      | .exec (.ok er) => exact (obeys_afterExec he).mono fun _ _ h reply hreply => ⟨h er rfl, hreply⟩
      | .exec (.error e) =>
        refine (obeys_afterExec he).mono fun _ _ _ reply hreply => ?_
        match reply with
        | .ok (.return v) => exact absurd rfl (hreply v)
        | .ok .next | .error _ => trivial
    refine hafter.andThen fun a after ha _ => ?_
    match a with
    | .ok _ => exact ha _ nofun
    | .error _ => exact ha _ nofun
  | onEvent event =>
    unfold runHook
    simp only [bind_eq, pure_eq]
    exact (obeys_onEvent he).andThen fun _ _ _ _ => trivial

private theorem obeys_invoke {hook : Hook V} (he : task.Enters hook done) :
    (invoke I X C hook).Obeys (rule I X C task)
      (fun reply after => ∃ rest, after = ⟨.leave hook reply, ()⟩ :: rest) done := by
  simp only [invoke, bind_eq, perform_bind, pure_eq]
  refine ⟨he, fun _ => (obeys_runHook rfl).andThen fun reply ran hr _ => ?_⟩
  exact ⟨hr, fun _ => ⟨ran, rfl⟩⟩

/-- The database operation of a statement and its `after`. -/
theorem obeys_query : (query I X C call).Obeys (rule I X C (.statement (.query call)))
    (fun _ _ => True) [] := by
  unfold query
  simp only [bind_eq, perform_bind, pure_eq]
  have hb : Task.Enters (.before call (.query ())) [] (.statement (.query call)) := .inl ⟨rfl, rfl⟩
  refine (obeys_invoke hb).andThen fun reply before _ _ => ?_
  match reply with
  | .error e => trivial
  | .ok (.return v) => trivial
  | .ok .next =>
    refine ⟨rfl, fun result => ?_⟩
    have he : Task.Enters (.after call (.query result)) (⟨.databaseQuery call, result⟩ :: before)
        (.statement (.query call)) := .inr ⟨result, before, rfl, rfl⟩
    refine (obeys_invoke he).andThen fun reply after _ _ => ?_
    match reply with
    | .error e => trivial
    | .ok _ => trivial

private theorem obeys_exec : (exec I X C call).Obeys (rule I X C (.statement (.exec call)))
    (fun _ _ => True) [] := by
  unfold exec
  simp only [bind_eq, perform_bind, pure_eq]
  have hb : Task.Enters (.before call (.exec ())) [] (.statement (.exec call)) := .inl ⟨rfl, rfl⟩
  refine (obeys_invoke hb).andThen fun reply before _ _ => ?_
  match reply with
  | .error e => trivial
  | .ok _ =>
    refine ⟨rfl, fun result => ?_⟩
    have he : Task.Enters (.after call (.exec result)) (⟨.databaseExec call, result⟩ :: before)
        (.statement (.exec call)) := .inr ⟨result, before, rfl, rfl⟩
    refine (obeys_invoke he).andThen fun reply after _ _ => ?_
    match reply with
    | .error e => trivial
    | .ok _ => trivial

theorem obeys_program : (task.program I X C).Obeys (rule I X C task) (fun _ _ => True) [] := by
  cases task with
  | statement s =>
    cases s with
    | query call => exact obeys_query.bind
    | exec call => exact obeys_exec.bind
  | hook h =>
    have he : Task.Enters h [] (.hook h) := ⟨rfl, rfl⟩
    exact (obeys_invoke he).andThen fun _ _ _ _ => trivial

theorem Task.call_of_enters {hook : Hook V} (h : task.Enters hook done) : hook.call = task.call := by
  cases task with
  | statement s =>
    cases s with
    | query call =>
      rcases h with ⟨rfl, -⟩ | ⟨_, _, rfl, -⟩
      · rfl
      · rfl
    | exec call =>
      rcases h with ⟨rfl, -⟩ | ⟨_, _, rfl, -⟩
      · rfl
      · rfl
  | hook g =>
    obtain ⟨rfl, -⟩ := h
    rfl

theorem Task.isQuery_of_enters {hook : Hook V} (h : task.Enters hook done) :
    hook.isQuery = task.isQuery := by
  cases task with
  | statement s =>
    cases s with
    | query call =>
      rcases h with ⟨rfl, -⟩ | ⟨_, _, rfl, -⟩
      · rfl
      · rfl
    | exec call =>
      rcases h with ⟨rfl, -⟩ | ⟨_, _, rfl, -⟩
      · rfl
      · rfl
  | hook g =>
    obtain ⟨rfl, -⟩ := h
    rfl

theorem Task.eq_hook_of_enters {event : TransactionEvent}
    (h : task.Enters (.onEvent event) done) : task = .hook (.onEvent event) := by
  cases task with
  | statement s =>
    cases s with
    | query call =>
      rcases h with ⟨h, -⟩ | ⟨_, _, h, -⟩
      · cases h
      · cases h
    | exec call =>
      rcases h with ⟨h, -⟩ | ⟨_, _, h, -⟩
      · cases h
      · cases h
  | hook g => exact congrArg Task.hook h.1.symm

/-- Every hook call in a lawful history is one of its task. -/
theorem call_of_entered {T : Type} [DecidableEq T] {tasks : T → Task V} {h : History V T} {t : T}
    {hook : Hook V} (hl : Lawful (fun t => rule I X C (tasks t)) h)
    (he : Entered hook (h.own t)) : hook.call = (tasks t).call := by
  obtain ⟨s, hs⟩ := History.exists_suffix_of_mem_own he
  exact Task.call_of_enters (hl _ _ hs)

theorem isQuery_of_entered {T : Type} [DecidableEq T] {tasks : T → Task V} {h : History V T}
    {t : T} {hook : Hook V} (hl : Lawful (fun t => rule I X C (tasks t)) h)
    (he : Entered hook (h.own t)) : hook.isQuery = (tasks t).isQuery := by
  obtain ⟨s, hs⟩ := History.exists_suffix_of_mem_own he
  exact Task.isQuery_of_enters (hl _ _ hs)

/-- The `before` of a task is the first thing it does. -/
theorem first_of_entered {T : Type} [DecidableEq T] {tasks : T → Task V} {h p : History V T} {t : T}
    {result : ResultType Unit Unit} (hl : Lawful (fun t => rule I X C (tasks t)) h)
    (he : ⟨t, .enter (.before call result), ()⟩ :: p <:+ h) : History.own p t = [] := by
  have hr : (tasks t).Enters (.before call result) (History.own p t) := hl _ _ he
  cases ht : tasks t with
  | statement s =>
    rw [ht] at hr
    cases s with
    | query c =>
      rcases hr with ⟨-, hd⟩ | ⟨_, _, h, -⟩
      · exact hd
      · cases h
    | exec c =>
      rcases hr with ⟨-, hd⟩ | ⟨_, _, h, -⟩
      · exact hd
      · cases h
  | hook g =>
    rw [ht] at hr
    exact hr.2

/-- Whatever else a task does it does after it has entered `before`. -/
theorem suffix_of_first {T : Type} [DecidableEq T] {tasks : T → Task V} {h p q : History V T}
    {t : T} {result : ResultType Unit Unit} (hl : Lawful (fun t => rule I X C (tasks t)) h)
    (he : ⟨t, .enter (.before call result), ()⟩ :: p <:+ h) {op : Op V} {r : op.Res}
    (hop : op.isEnter = false) (hq : ⟨t, op, r⟩ :: q <:+ h) :
    ⟨t, .enter (.before call result), ()⟩ :: p <:+ q := by
  rcases List.suffix_or_suffix_of_suffix he hq with hs | hs
  · rcases List.suffix_cons_iff.mp hs with hs | hs
    · cases hs
      cases hop
    · exact hs
  · exfalso
    rcases List.suffix_cons_iff.mp hs with hs | hs
    · cases hs
      cases hop
    · have hp : ⟨op, r⟩ ∈ History.own p t := History.mem_own.mpr (hs.subset List.mem_cons_self)
      rw [first_of_entered hl he] at hp
      cases hp

/-- What has happened when a task enters `before` has happened before whatever else it does. -/
theorem mem_of_first {T : Type} [DecidableEq T] {tasks : T → Task V} {h p q : History V T}
    {t : T} {result : ResultType Unit Unit} (hl : Lawful (fun t => rule I X C (tasks t)) h)
    (he : ⟨t, .enter (.before call result), ()⟩ :: p <:+ h) {op : Op V} {r : op.Res}
    (hop : op.isEnter = false) (hq : ⟨t, op, r⟩ :: q <:+ h) {e : Event T (Op V) Op.Res}
    (hm : e ∈ p) : e ∈ q :=
  ((List.suffix_cons _ _).trans (suffix_of_first hl he hop hq)).subset hm

/-- A statement hands to `after` what it has just read from the database. -/
theorem read_of_entered {T : Type} [DecidableEq T] {tasks : T → Task V} {h q : History V T} {t : T}
    {s : Statement V} {result : Except String V} (hl : Lawful (fun t => rule I X C (tasks t)) h)
    (ht : tasks t = .statement s)
    (he : ⟨t, .enter (.after call (.query result)), ()⟩ :: q <:+ h) :
    ∃ rest, q.own t = ⟨.databaseQuery call, result⟩ :: rest := by
  have hr : (tasks t).Enters (.after call (.query result)) (q.own t) := hl _ _ he
  rw [ht] at hr
  cases s with
  | query c =>
    rcases hr with ⟨h, -⟩ | ⟨result, rest, h, hq⟩
    · cases h
    · cases h
      exact ⟨rest, hq⟩
  | exec c =>
    rcases hr with ⟨h, -⟩ | ⟨_, _, h, -⟩
    · cases h
    · cases h

/-- A statement hands to `after` what its DML has just done to the database. -/
theorem exec_of_entered {T : Type} [DecidableEq T] {tasks : T → Task V} {h q : History V T} {t : T}
    {s : Statement V} {result : Except String ExecResult}
    (hl : Lawful (fun t => rule I X C (tasks t)) h) (ht : tasks t = .statement s)
    (he : ⟨t, .enter (.after call (.exec result)), ()⟩ :: q <:+ h) :
    ∃ rest, q.own t = ⟨.databaseExec call, result⟩ :: rest := by
  have hr : (tasks t).Enters (.after call (.exec result)) (q.own t) := hl _ _ he
  rw [ht] at hr
  cases s with
  | query c =>
    rcases hr with ⟨h, -⟩ | ⟨_, _, h, -⟩
    · cases h
    · cases h
  | exec c =>
    rcases hr with ⟨h, -⟩ | ⟨result, rest, h, hq⟩
    · cases h
    · cases h
      exact ⟨rest, hq⟩

/-- The first thing a statement does is to enter its `before`. -/
theorem exists_start {T : Type} [DecidableEq T] {tasks : T → Task V} {h : History V T} {t : T}
    {s : Statement V} (hl : Lawful (fun t => rule I X C (tasks t)) h) (hb : Bracketed h)
    (ht : tasks t = .statement s) (hne : h.own t ≠ []) :
    ∃ call result p, ⟨t, .enter (.before call result), ()⟩ :: p <:+ h := by
  obtain ⟨rest, ⟨op, r⟩, hlast⟩ := List.eq_nil_or_concat (h.own t) |>.resolve_left hne
  obtain ⟨p, hp, hnil⟩ := History.exists_suffix_of_own (hlast.trans (List.concat_eq_append ..))
  have hbr : bracket (History.own p t) op := hb _ _ hp
  rw [hnil] at hbr
  cases op with
  | enter hook =>
    have hr : (tasks t).Enters hook (History.own p t) := hl _ _ hp
    rw [ht, hnil] at hr
    cases s with
    | query c =>
      rcases hr with ⟨rfl, -⟩ | ⟨_, _, -, h⟩
      · exact ⟨_, _, p, hp⟩
      · cases h
    | exec c =>
      rcases hr with ⟨rfl, -⟩ | ⟨_, _, -, h⟩
      · exact ⟨_, _, p, hp⟩
      · cases h
  | leave | databaseQuery => cases hbr
  | databaseExec =>
    obtain ⟨_, h⟩ := hbr
    cases h
  | _ =>
    obtain ⟨_, h⟩ := hbr
    cases h

/-- Every task of an interceptor obeys its protocol from the start. -/
theorem obeys_initial {B : CacheBackend} {T : Type} [DecidableEq T] (tasks : T → Task V)
    (state : B.State) :
    (initial I X C tasks state).Obeys (fun t => rule I X C (tasks t)) fun _ _ _ => True :=
  fun _ => obeys_program

theorem reaches_lawful {B : CacheBackend} {T : Type} [DecidableEq T] {tasks : T → Task V}
    {state : B.State} {A : Restriction T (Op V) Op.Res (Choice B V) (World B V)}
    {c : Config T (Op V) Op.Res (World B V) (Reply V)}
    (run : Reaches (machine B V T I) A (initial I X C tasks state) c) :
    Lawful (fun t => rule I X C (tasks t)) c.history :=
  (run.lawful_of_obeys (obeys_initial tasks state) rfl).1

end
end RbatisCache.RbatisInterceptor
