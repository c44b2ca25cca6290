import RbatisCache.RbatisInterceptor.Layers
import RbatisCache.RbatisInterceptor.Sample

/-! What the hooks write into the backend. A result is stored by the `after` that was handed it,
within the limits of the policy, or flushed when the transaction commits that has buffered it,
without regard to them. -/
namespace RbatisCache.RbatisInterceptor
open Interleaving
open Interleaving.Prog (bind_eq perform_bind pure_eq Only Obeys)
open RbatisCacheInterceptor

section
variable {V : Type} (I : RbatisCacheInterceptor) (X : Externals Bytes) (C : ValueCodec V)

/-- How long a value may stay in the backend. -/
def entryTtl (value : V) : Duration :=
  if C.isEmpty value then I.policy.nullTtl.getD I.policy.ttl else I.policy.ttl

/-- What the policy asks of a write. -/
structure Conforms (value : V) (payload : Bytes) (ttl : Duration) : Prop where
  size : payload.length ≤ I.policy.maxValueSize
  null : C.isEmpty value = true → I.policy.cacheNull = true
  ttl : ttl = entryTtl I C value

/-- An envelope for a value, from the clock that has just been read. -/
structure Envelops (key : CacheKey) (value : V) (payload : Bytes) (ttl : Duration) (bytes : Bytes)
    (done : Done V) : Prop where
  encoded : C.toVecNamed value = .ok payload
  envelope : ∃ now, done.head? = some ⟨.nowMs, now⟩ ∧
    (CacheEnvelope.new key payload ttl now).encode X = .ok bytes

/-- An `after` stores the result that it was handed; in a transaction it has found no buffer. -/
structure Direct (call : Call V) (key : CacheKey) (value : V) (done : Done V) : Prop where
  resolved : Resolved I X C call (.ok value) key done
  unbuffered : call.rb.isInTransaction = true → I.policy.transactionMode = .defer →
    ⟨.bufferPut call.taskId key value, false⟩ ∈ done

/-- The listener flushes an entry of the buffer of a transaction that commits. -/
structure Flushed (txId : Int) (buffer : TransactionalCacheBuffer V) (key : CacheKey) (value : V)
    (done : Done V) : Prop where
  entered : Entered (.onEvent ⟨.commitSuccess, txId⟩) done
  removed : ⟨.removeBuffer txId, some buffer⟩ ∈ done
  holds : buffer.Holds key value

/-- The two ways into the backend. -/
inductive Written (digest : String) (bytes : Bytes) (ttl : Duration) (done : Done V) : Prop
  | direct {call : Call V} {key : CacheKey} {value : V} {payload : Bytes}
      (origin : Direct I X C call key value done) (digest_eq : key.digest = digest)
      (envelops : Envelops X C key value payload ttl bytes done)
      (conforms : Conforms I C value payload ttl)
  | flushed {txId : Int} {buffer : TransactionalCacheBuffer V} {key : CacheKey} {value : V}
      {payload : Bytes} (origin : Flushed txId buffer key value done)
      (digest_eq : key.digest = digest)
      (envelops : Envelops X C key value payload ttl bytes done) (ttl_eq : ttl = buffer.ttl)

/-- What a task has made sure of before it writes into the backend or into a buffer. -/
def writes (done : Done V) : Op V → Prop
  | .backend (.put k bytes ttl) => Written I X C k bytes ttl done
  | .bufferPut _ _ value => C.isEmpty value = true → I.policy.cacheNull = true
  | _ => True

variable {I X C} {done : Done V} {call : Call V} {key : CacheKey} {value : V}

theorem Envelops.encodes {payload bytes : Bytes} {ttl : Duration}
    (h : Envelops X C key value payload ttl bytes done) : Encodes X C key value bytes := by
  obtain ⟨now, -, he⟩ := h.envelope
  exact ⟨payload, ttl, now, h.encoded, he⟩

theorem Flushed.grow {later : Done V} {txId : Int} {buffer : TransactionalCacheBuffer V}
    (h : Flushed txId buffer key value done) (hl : done <:+ later) :
    Flushed txId buffer key value later :=
  ⟨h.entered.grow hl, hl.subset h.removed, h.holds⟩

/-! ### The programs -/

private theorem writes_of_reads {α : Type} {p : Prog (Op V) Op.Res α} {Q : α → Done V → Prop}
    (h : p.Ensures Q done) (ho : p.Only Op.Reads) : p.Obeys (writes I X C) Q done := by
  refine h.obeys ho fun _ op hop => ?_
  cases op with
  | backend o =>
    cases o with
    | put => cases hop
    | _ => trivial
  | bufferPut => cases hop
  | _ => trivial

private theorem writes_storeValue {ttl : Duration} (origin : Direct I X C call key value done)
    (null : C.isEmpty value = true → I.policy.cacheNull = true) (ttl_eq : ttl = entryTtl I C value) :
    (storeValue I X C key value ttl).Obeys (writes I X C) (fun _ _ => True) done := by
  unfold storeValue
  simp only [bind_eq, perform_bind, pure_eq]
  cases hp : C.toVecNamed value with
  | error e => trivial
  | ok payload =>
    dsimp only
    split
    · trivial
    · next hsize =>
      refine ⟨trivial, fun now => ?_⟩
      dsimp only
      cases he : (CacheEnvelope.new key payload ttl now).encode X with
      | error e => trivial
      | ok bytes =>
        have hs : done <:+ ⟨.nowMs, now⟩ :: done := List.suffix_cons _ _
        have later : Direct I X C call key value (⟨.nowMs, now⟩ :: done) :=
          ⟨origin.resolved.grow hs, fun tx mode => hs.subset (origin.unbuffered tx mode)⟩
        refine ⟨.direct later rfl ⟨hp, now, rfl, he⟩ ⟨by omega, null, ttl_eq⟩, fun result => ?_⟩
        match result with
        | .ok _ => trivial
        | .error e =>
          refine ⟨trivial, fun _ => ?_⟩
          dsimp only
          split
          · trivial
          · trivial

private theorem writes_afterStore (hr : Resolved I X C call (.ok value) key done) :
    (afterStore I X C call key value).Obeys (writes I X C) (fun _ _ => True) done := by
  unfold afterStore
  simp only [bind_eq, perform_bind, pure_eq]
  split
  · trivial
  · next hnull =>
    have null : C.isEmpty value = true → I.policy.cacheNull = true := by
      intro he
      simpa [he] using hnull
    split
    · refine ⟨null, fun buffered => ?_⟩
      match buffered with
      | true => trivial
      | false =>
        have hs : done <:+ ⟨.bufferPut call.taskId key value, false⟩ :: done := List.suffix_cons _ _
        exact writes_storeValue ⟨hr.grow hs, fun _ _ => List.mem_cons_self⟩ null rfl
    · next hd =>
      refine writes_storeValue ⟨hr, fun tx mode => absurd ?_ hd⟩ null rfl
      simp [tx, mode]

private theorem writes_afterQuery {result : Except String V} {rest : Done V}
    (hd : done = ⟨.enter (.after call (.query result)), ()⟩ :: rest) :
    (afterQuery I X C call result).Obeys (writes I X C) (fun _ _ => True) done := by
  unfold afterQuery
  simp only [bind_eq, pure_eq]
  split
  · trivial
  · next hc =>
    refine (writes_of_reads ensures_key reads_resolveKey).andThen fun a resolved ha _ => ?_
    match a with
    | .error e => trivial
    | .ok key =>
      obtain ⟨rfl, hb⟩ := ha key rfl
      have hr : Resolved I X C call result key
          (⟨.backend (.generation I.nameSpace), .ok key.generation⟩ :: done) :=
        ⟨⟨rest, by rw [hd]⟩, by simpa using hc, hb⟩
      refine (writes_of_reads Prog.ensures_true (local_completeLoad.mono Op.Local.reads)).andThen
        fun _ completed _ hg => ?_
      match result with
      | .error e => trivial
      | .ok v =>
        refine (writes_of_reads Prog.ensures_true (local_l1Put.mono Op.Local.reads)).andThen
          fun _ filled _ hf => ?_
        exact writes_afterStore ((hr.grow hg).grow hf)

theorem Op.Drops.writes : ∀ (past : Done V) (op : Op V), op.Drops → writes I X C past op := by
  intro past op h
  cases op with
  | backend o =>
    cases o with
    | put => cases h
    | _ => trivial
  | bufferPut => cases h
  | _ => trivial

private theorem writes_afterExec {result : Except String ExecResult} :
    (afterExec I call result).Obeys (writes I X C) (fun _ _ => True) done :=
  Prog.ensures_true.obeys drops_afterExec Op.Drops.writes

private theorem writes_flushNamespaces {nameSpaces : List String} :
    (flushNamespaces nameSpaces : Code V _).Obeys (writes I X C) (fun _ _ => True) done := by
  induction nameSpaces generalizing done with
  | nil => trivial
  | cons n rest ih =>
    simp only [flushNamespaces, bind_eq, perform_bind, pure_eq]
    refine ⟨trivial, fun result => ?_⟩
    cases result with
    | error => trivial
    | ok => exact ih

private theorem writes_flushEntries {txId : Int} {buffer : TransactionalCacheBuffer V}
    {entries : List (CacheKey × V)}
    (origin : ∀ key v, (key, v) ∈ entries → Flushed txId buffer key v done) :
    (flushEntries X C buffer.ttl entries).Obeys (writes I X C) (fun _ _ => True) done := by
  refine (obeys_flushes (K := fun past => done <:+ past) ?_ ?_ ?_ (List.suffix_refl _)).mono
    fun _ _ _ => trivial
  · exact fun _ _ _ _ h => h.trans (List.suffix_cons _ _)
  · exact fun _ _ => trivial
  · intro past key v payload now bytes hm h encoded sealed
    have grown := h.trans (List.suffix_cons ⟨.nowMs, now⟩ past)
    exact .flushed ((origin key v hm).grow grown) rfl ⟨encoded, now, rfl, sealed⟩ rfl

private theorem writes_onEvent {event : TransactionEvent} (he : Entered (.onEvent event) done) :
    (onEvent I X C event).Obeys (writes I X C) (fun _ _ => True) done := by
  obtain ⟨type, txId⟩ := event
  unfold onEvent
  simp only [bind_eq, perform_bind, pure_eq]
  cases type with
  | begin =>
    dsimp only
    split
    · exact ⟨trivial, fun _ => trivial⟩
    · trivial
  | commitSuccess =>
    dsimp only
    split
    · refine ⟨trivial, fun result => ?_⟩
      match result with
      | none => trivial
      | some buffer =>
        refine Prog.Obeys.andThen (Q := fun _ _ => True) ?_ fun _ _ _ _ => trivial
        unfold flushTo
        simp only [bind_eq, pure_eq]
        refine writes_flushNamespaces.andThen fun a bumped _ hg => ?_
        match a with
        | .error e => trivial
        | .ok _ =>
          have origin (key v) (hm : (key, v) ∈ buffer.entries) : Flushed txId buffer key v bumped :=
            ⟨he.grow ((List.suffix_cons _ _).trans hg), hg.subset List.mem_cons_self,
              TransactionalCacheBuffer.holds_of_mem_entries hm⟩
          exact writes_flushEntries origin
    · exact ⟨trivial, fun _ => trivial⟩
  | commitFailed | rollback | rollbackFailed => exact ⟨trivial, fun _ => trivial⟩

private theorem writes_runHook {hook : Hook V} :
    (runHook I X C hook).Obeys (writes I X C) (fun _ _ => True) (⟨.enter hook, ()⟩ :: done) := by
  cases hook with
  | before call result => exact writes_of_reads Prog.ensures_true reads_before
  | after call result =>
    unfold runHook
    simp only [bind_eq, pure_eq]
    have hafter : (after I X C call result).Obeys (writes I X C) (fun _ _ => True)
        (⟨.enter (.after call result), ()⟩ :: done) := by
      cases result with
      | query result => exact writes_afterQuery rfl
      | exec result => exact writes_afterExec
    refine hafter.andThen fun reply _ _ _ => ?_
    match reply with
    | .ok _ | .error _ => trivial
  | onEvent event =>
    unfold runHook
    simp only [bind_eq, pure_eq]
    exact (writes_onEvent List.mem_cons_self).andThen fun _ _ _ _ => trivial

theorem writes_program {task : Task V} :
    (task.program I X C).Obeys (writes I X C) (fun _ _ => True) done :=
  obeys_program_of_hooks (fun _ _ => trivial) (fun _ _ => trivial) (fun _ _ => trivial)
    fun _ _ => writes_runHook

end

/-! ### What the buffers hold -/

section
variable {B : CacheBackend} {V T : Type} [DecidableEq T] (I : RbatisCacheInterceptor)
variable (X : Externals Bytes) (C : ValueCodec V)

/-- A buffer as the statements of its transaction have filled it. -/
structure FilledBuffer (h : History V T) (txId : Int) (buffer : TransactionalCacheBuffer V) : Prop where
  ttl : buffer.ttl = I.policy.ttl
  put : ∀ key v, buffer.Holds key v → ∃ t r, ⟨t, .bufferPut txId key v, r⟩ ∈ h
  null : ∀ key v, buffer.Holds key v → C.isEmpty v = true → I.policy.cacheNull = true

/-- All buffers, and those that have been taken out, are filled by their transactions. -/
structure BuffersFilled (w : World B V) (h : History V T) : Prop where
  held : ∀ tx buf, w.txBuffers.lookup tx = some buf → FilledBuffer I C h tx buf
  removed : h.Always fun e s => ∀ t tx buf, e = ⟨t, .removeBuffer tx, some buf⟩ →
    FilledBuffer I C s tx buf

/-- The protocol of a task, with what it writes. -/
def writingRule (task : Task V) (done : Done V) (op : Op V) : Prop :=
  rule I X C task done op ∧ writes I X C done op

variable {I X C} {tasks : T → Task V} {A : Restriction T (Op V) Op.Res (Choice B V) (World B V)}
variable {state : B.State} {d : Config T (Op V) Op.Res (World B V) (Reply V)}
variable {h s : History V T}

omit [DecidableEq T] in
theorem FilledBuffer.suffix {tx : Int} {buf : TransactionalCacheBuffer V}
    (hb : FilledBuffer I C s tx buf) (hs : s <:+ h) : FilledBuffer I C h tx buf := by
  refine ⟨hb.ttl, fun key v hv => ?_, hb.null⟩
  obtain ⟨t, r, hm⟩ := hb.put key v hv
  exact ⟨t, r, hs.subset hm⟩

theorem buffersFilled_preserved :
    PreservesLawful (machine B V T I) A (fun t => writingRule I X C (tasks t))
      (BuffersFilled I C) := by
  intro t op ch w h r u _ hi hr _ hm
  have hc : h <:+ ⟨t, op, r⟩ :: h := List.suffix_cons _ _
  refine ⟨fun tx buf hb => ?_, hi.removed.cons fun t' tx buf he => ?_⟩
  · rcases buffer_origin hm hb with ⟨-, rfl⟩ | ⟨old, hold, rfl | ⟨k, a, rfl, rfl⟩ | ⟨n, rfl, rfl⟩⟩
    · exact ⟨rfl, fun key v hv => absurd hv TransactionalCacheBuffer.not_holds_new,
        fun key v hv => absurd hv TransactionalCacheBuffer.not_holds_new⟩
    · exact (hi.held tx _ hold).suffix hc
    · have filled := (hi.held tx old hold).suffix hc
      refine ⟨filled.ttl, fun key v hv => ?_, fun key v hv => ?_⟩
      · rcases TransactionalCacheBuffer.holds_of_put hv with ⟨rfl, rfl⟩ | hv
        · exact ⟨t, r, List.mem_cons_self⟩
        · exact filled.put key v hv
      · rcases TransactionalCacheBuffer.holds_of_put hv with ⟨rfl, rfl⟩ | hv
        · exact hr.2
        · exact filled.null key v hv
    · have filled := (hi.held tx old hold).suffix hc
      exact ⟨filled.ttl, filled.put, filled.null⟩
  · cases he
    exact hi.held tx buf (congrArg Prod.fst (Option.some.inj hm))

theorem reaches_writes (run : Reaches (machine B V T I) A (initial I X C tasks state) d) :
    Lawful (fun t => writingRule I X C (tasks t)) d.history ∧
      BuffersFilled I C d.world d.history := by
  have hstart : BuffersFilled I C (initial I X C tasks state).world ([] : History V T) :=
    ⟨fun tx buf hb => by simp [initial, World.new] at hb, History.always_nil⟩
  obtain ⟨hl, hi, -⟩ := run.lawful buffersFilled_preserved
    (fun t => obeys_program.and writes_program) rfl hstart
  exact ⟨hl, hi⟩

/-- What is put into the backend is an envelope of a query result. The `after` that stores its own
result keeps to the policy; the flush of a buffered result keeps to it exactly if the result fits
and, for an empty one, if the policy has no lifetime of its own for empty results. -/
theorem put_conforms_iff (run : Reaches (machine B V T I) A (initial I X C tasks state) d) {t : T}
    {k : String} {bytes : Bytes} {ttl : Duration} {r : Except CacheError Unit}
    (put : ⟨t, .backend (.put k bytes ttl), r⟩ :: s <:+ d.history) :
    ∃ key v payload, key.digest = k ∧ Envelops X C key v payload ttl bytes (History.own s t) ∧
      ((∃ call, Direct I X C call key v (History.own s t)) ∧ Conforms I C v payload ttl ∨
        (∃ txId buffer, Flushed txId buffer key v (History.own s t)) ∧
          (Conforms I C v payload ttl ↔ payload.length ≤ I.policy.maxValueSize ∧
            (C.isEmpty v = true → I.policy.nullTtl.getD I.policy.ttl = I.policy.ttl))) := by
  obtain ⟨lawful, filled⟩ := reaches_writes run
  obtain ⟨-, written⟩ := lawful _ _ put
  cases written with
  | @direct call key v payload origin digest_eq envelops conforms =>
    exact ⟨key, v, payload, digest_eq, envelops, .inl ⟨⟨call, origin⟩, conforms⟩⟩
  | @flushed txId buffer key v payload origin digest_eq envelops ttl_eq =>
    refine ⟨key, v, payload, digest_eq, envelops, .inr ⟨⟨txId, buffer, origin⟩, ?_⟩⟩
    obtain ⟨q, hq⟩ := History.exists_suffix_of_mem_own origin.removed
    have hbuffer := filled.removed _ _ (hq.trans ((List.suffix_cons _ _).trans put)) _ _ _ rfl
    rw [ttl_eq, hbuffer.ttl]
    constructor
    · intro conforms
      refine ⟨conforms.size, fun empty => ?_⟩
      have httl := conforms.ttl
      rw [entryTtl, if_pos empty] at httl
      exact httl.symm
    · rintro ⟨size, lifetime⟩
      refine ⟨size, hbuffer.null key v origin.holds, ?_⟩
      unfold entryTtl
      split
      · next empty => exact (lifetime empty).symm
      · rfl

variable (I C) in
/-- Where the result of a query in a transaction finds no buffer, it is too large for the backend. -/
def FindsBuffer : Restriction T (Op V) Op.Res (Choice B V) (World B V) :=
  fun _ op _ w _ => ∀ txId key v, op = .bufferPut txId key v →
    (w.txBuffers.lookup txId).isSome ∨
      ∀ payload, C.toVecNamed v = .ok payload → I.policy.maxValueSize < payload.length

private theorem unbuffered_of_finds (run : Reaches (machine B V T I) (FindsBuffer I C)
    (initial I X C tasks state) d) : d.history.Always fun e _ => ∀ t txId key v,
      e = ⟨t, .bufferPut txId key v, false⟩ →
        ∀ payload, C.toVecNamed v = .ok payload → I.policy.maxValueSize < payload.length := by
  refine run.permitted (fun t op ch w h r u ha hm t' txId key v he => ?_) rfl
  cases he
  rcases ha txId key v rfl with found | large
  · obtain ⟨buf, hb⟩ := Option.isSome_iff_exists.mp found
    have hr : (w.onBuffer txId fun buffer => buffer.put key v).1 = false :=
      congrArg Prod.fst (Option.some.inj hm)
    rw [World.onBuffer, hb] at hr
    cases hr
  · exact large

/-- Results of queries in a transaction get into the backend only when the listener handles the
commit of the transaction. -/
theorem deferred_results_wait_for_commit (mode : I.policy.transactionMode = .defer)
    (run : Reaches (machine B V T I) (FindsBuffer I C) (initial I X C tasks state) d) {t : T}
    {k : String} {bytes : Bytes} {ttl : Duration} {r : Except CacheError Unit}
    (put : ⟨t, .backend (.put k bytes ttl), r⟩ :: s <:+ d.history) :
    ∃ key v, key.digest = k ∧ Encodes X C key v bytes ∧
      ((∃ call, call.rb.isInTransaction = false ∧ Resolved I X C call (.ok v) key (History.own s t)) ∨
        ∃ txId t' call r', tasks t = .hook (.onEvent ⟨.commitSuccess, txId⟩) ∧
          ⟨t, .enter (.onEvent ⟨.commitSuccess, txId⟩), ()⟩ ∈ s ∧
          ⟨t', .bufferPut txId key v, r'⟩ ∈ s ∧ Filed I X C s t' call key v ∧
          call.rb.isInTransaction = true ∧ call.taskId = txId) := by
  obtain ⟨lawful, filled⟩ := reaches_writes run
  have hs : s <:+ d.history := (List.suffix_cons _ _).trans put
  obtain ⟨-, written⟩ := lawful _ _ put
  cases written with
  | @direct call key v payload origin digest_eq envelops conforms =>
    refine ⟨key, v, digest_eq, envelops.encodes, .inl ⟨call, ?_, origin.resolved⟩⟩
    by_contra inside
    have unbuffered := origin.unbuffered (by simpa using inside) mode
    obtain ⟨q, hq⟩ := History.exists_suffix_of_mem_own unbuffered
    have large := unbuffered_of_finds run _ _ (hq.trans hs) t _ key v rfl payload envelops.encoded
    exact absurd conforms.size (by omega)
  | @flushed txId buffer key v payload origin digest_eq envelops ttl_eq =>
    have entered := History.mem_own.mp origin.entered
    obtain ⟨p, hp⟩ := History.exists_suffix_of_mem entered
    obtain ⟨q, hq⟩ := History.exists_suffix_of_mem_own origin.removed
    obtain ⟨t', r', hput⟩ := (filled.removed _ _ (hq.trans hs) _ _ _ rfl).put key v origin.holds
    have hqs : q <:+ s := (List.suffix_cons _ _).trans hq
    obtain ⟨o, ho⟩ := History.exists_suffix_of_mem hput
    obtain ⟨⟨call, resolved, inside, -, taskId⟩, -⟩ := lawful _ _ (ho.trans (hqs.trans hs))
    refine ⟨key, v, digest_eq, envelops.encodes, .inr ⟨txId, t', call, r', ?_, entered,
      hqs.subset hput, ?_, inside, taskId⟩⟩
    · exact Task.eq_hook_of_enters (lawful _ _ (hp.trans hs)).1
    · exact Filed.suffix resolved ((List.suffix_cons _ _).trans (ho.trans hqs))

end

def Op.isPut {V : Type} : Op V → Bool
  | .backend (.put _ _ _) => true
  | _ => false

private theorem exists_put {V T : Type} [DecidableEq T] {h : History V T} {t : T}
    (hp : h.any (fun e => decide (e.task = t) && e.op.isPut) = true) :
    ∃ s k bytes ttl r, ⟨t, .backend (.put k bytes ttl), r⟩ :: s <:+ h := by
  obtain ⟨⟨t', op, r⟩, hm, he⟩ := List.any_eq_true.mp hp
  simp only [Bool.and_eq_true, decide_eq_true_eq] at he
  obtain ⟨rfl, hop⟩ := he
  obtain ⟨s, hs⟩ := History.exists_suffix_of_mem hm
  cases op with
  | backend o =>
    cases o with
    | put k bytes ttl => exact ⟨s, k, bytes, ttl, r, hs⟩
    | _ => cases hop
  | _ => cases hop

/-- A transaction with one query. -/
def oneQuery : Fin 3 → Task UInt64
  | 0 => Sample.event .begin 9
  | 1 => Sample.select (Sample.txCall 9 "SELECT 1")
  | 2 => Sample.event .commitSuccess 9

/-- The same, and a connection that runs the query before the commit. -/
def bothWays : Fin 4 → Task UInt64
  | 0 => Sample.event .begin 9
  | 1 => Sample.select (Sample.txCall 9 "SELECT 1")
  | 2 => Sample.event .commitSuccess 9
  | 3 => Sample.select (Sample.call 1 "SELECT 1")

/-- A put is direct and conforms, or it flushes a buffer and conforms exactly if it may. -/
def Accounted (k : String) (bytes : Bytes) (ttl : Duration) (done : Done UInt64) : Prop :=
  ∃ key v payload, key.digest = k ∧
    Envelops Sample.externals Sample.codec key v payload ttl bytes done ∧
    ((∃ call, Direct Sample.deferring Sample.externals Sample.codec call key v done) ∧
        Conforms Sample.deferring Sample.codec v payload ttl ∨
      (∃ txId buffer, Flushed txId buffer key v done) ∧
        (Conforms Sample.deferring Sample.codec v payload ttl ↔
          payload.length ≤ Sample.deferring.policy.maxValueSize ∧
          (Sample.codec.isEmpty v = true →
            Sample.deferring.policy.nullTtl.getD Sample.deferring.policy.ttl =
              Sample.deferring.policy.ttl)))

/-- The connection stores its result, and then the commit flushes that of the transaction. -/
theorem results_stored_both_ways :
    ∃ (d : Sample.State (Fin 4)) (s : History UInt64 (Fin 4)) (k : String) (bytes : Bytes)
      (ttl : Duration) (r : Except CacheError Unit) (s' : History UInt64 (Fin 4)) (k' : String)
      (bytes' : Bytes) (ttl' : Duration) (r' : Except CacheError Unit),
      ⟨3, .backend (.put k bytes ttl), r⟩ :: s <:+ d.history ∧
      ⟨2, .backend (.put k' bytes' ttl'), r'⟩ :: s' <:+ d.history ∧
      ⟨2, .enter (.onEvent ⟨.commitSuccess, 9⟩), ()⟩ ∈ d.history ∧
      Accounted k bytes ttl (History.own s 3) ∧ Accounted k' bytes' ttl' (History.own s' 2) := by
  obtain ⟨d, run, seen⟩ := play_observed (M := Sample.steps (Fin 4) Sample.deferring)
    (A := Restriction.none) (c := Sample.start Sample.deferring bothWays)
    (List.replicate 3 (0, Sample.reading 7) ++ List.replicate 19 (1, Sample.reading 7) ++
      List.replicate 19 (3, Sample.reading 7) ++ List.replicate 4 (2, Sample.reading 7))
    (fun d => (d.history.any fun e => decide (e.task = 3) && e.op.isPut) &&
      (d.history.any fun e => decide (e.task = 2) && e.op.isPut) &&
      decide (⟨2, .enter (.onEvent ⟨.commitSuccess, 9⟩), ()⟩ ∈ d.history))
    (by decide +kernel)
  simp only [Bool.and_eq_true] at seen
  obtain ⟨⟨direct, flush⟩, commit⟩ := seen
  obtain ⟨s, k, bytes, ttl, r, put⟩ := exists_put direct
  obtain ⟨s', k', bytes', ttl', r', put'⟩ := exists_put flush
  exact ⟨d, s, k, bytes, ttl, r, s', k', bytes', ttl', r', put, put', of_decide_eq_true commit,
    put_conforms_iff run put, put_conforms_iff run put'⟩

/-- A transaction that lets no result of eight bytes into the backend. -/
def narrow : RbatisCacheInterceptor := ⟨"ns", { transactionMode := .defer, maxValueSize := 4 }⟩

/-- The flush writes a result that is too large. -/
theorem flush_exceeds_size :
    ∃ (d : Sample.State (Fin 3)) (s : History UInt64 (Fin 3)) (k : String) (bytes : Bytes)
      (ttl : Duration) (r : Except CacheError Unit) (txId : Int)
      (buffer : TransactionalCacheBuffer UInt64) (key : CacheKey) (v : UInt64) (payload : Bytes),
      Reaches (Sample.steps (Fin 3) narrow) Restriction.none (Sample.start narrow oneQuery) d ∧
      ⟨2, .backend (.put k bytes ttl), r⟩ :: s <:+ d.history ∧
      Flushed txId buffer key v (History.own s 2) ∧
      Envelops Sample.externals Sample.codec key v payload ttl bytes (History.own s 2) ∧
      narrow.policy.maxValueSize < payload.length := by
  obtain ⟨d, run, seen⟩ := play_observed (M := Sample.steps (Fin 3) narrow)
    (A := Restriction.none) (c := Sample.start narrow oneQuery)
    (List.replicate 3 (0, Sample.reading 7) ++ List.replicate 19 (1, Sample.reading 7) ++
      List.replicate 4 (2, Sample.reading 7))
    (fun d => d.history.any fun e => decide (e.task = 2) && e.op.isPut) (by decide +kernel)
  obtain ⟨s, k, bytes, ttl, r, put⟩ := exists_put seen
  have large {v : UInt64} {payload : Bytes} (h : Sample.codec.toVecNamed v = .ok payload) :
      4 < payload.length := by
    cases h
    rw [length_toLeBytes]
    decide
  obtain ⟨-, written⟩ := (reaches_writes run).1 _ _ put
  cases written with
  | direct origin digest_eq envelops conforms =>
    have small : _ ≤ 4 := conforms.size
    exact absurd (large envelops.encoded) (by omega)
  | flushed origin digest_eq envelops ttl_eq =>
    exact ⟨d, s, k, bytes, ttl, r, _, _, _, _, _, run, put, origin, envelops,
      large envelops.encoded⟩

/-- Whether a result that is to be buffered finds its buffer. -/
def hasBuffer {B : CacheBackend} {V : Type} (op : Op V) (w : World B V) : Bool :=
  match op with
  | .bufferPut txId _ _ => (w.txBuffers.lookup txId).isSome
  | _ => true

/-- A query in a transaction whose result is flushed at the commit. -/
theorem result_waits_for_commit :
    ∃ (d : Sample.State (Fin 3)) (s : History UInt64 (Fin 3)) (k : String) (bytes : Bytes)
      (ttl : Duration) (r : Except CacheError Unit),
      ⟨2, .backend (.put k bytes ttl), r⟩ :: s <:+ d.history ∧
      ∃ key v, key.digest = k ∧ Encodes Sample.externals Sample.codec key v bytes ∧
        ((∃ call, call.rb.isInTransaction = false ∧ Resolved Sample.deferring Sample.externals
            Sample.codec call (.ok v) key (History.own s 2)) ∨
          ∃ txId t' call r', oneQuery 2 = .hook (.onEvent ⟨.commitSuccess, txId⟩) ∧
            ⟨2, .enter (.onEvent ⟨.commitSuccess, txId⟩), ()⟩ ∈ s ∧
            ⟨t', .bufferPut txId key v, r'⟩ ∈ s ∧
            Filed Sample.deferring Sample.externals Sample.codec s t' call key v ∧
            call.rb.isInTransaction = true ∧ call.taskId = txId) := by
  obtain ⟨d, run, seen⟩ := play_observed (M := Sample.steps (Fin 3) Sample.deferring)
    (A := fun _ op _ w _ => hasBuffer op w = true) (c := Sample.start Sample.deferring oneQuery)
    (List.replicate 3 (0, Sample.reading 7) ++ List.replicate 19 (1, Sample.reading 7) ++
      List.replicate 4 (2, Sample.reading 7))
    (fun d => d.history.any fun e => decide (e.task = 2) && e.op.isPut) (by decide +kernel)
  obtain ⟨s, k, bytes, ttl, r, put⟩ := exists_put seen
  have run' : Reaches (Sample.steps (Fin 3) Sample.deferring)
      (FindsBuffer Sample.deferring Sample.codec) (Sample.start Sample.deferring oneQuery) d := by
    refine run.weaken fun t op ch w h ha txId key v he => ?_
    subst he
    exact .inl ha
  exact ⟨d, s, k, bytes, ttl, r, put, deferred_results_wait_for_commit rfl run' put⟩

/-- A transaction that is queried once more after its commit has failed. -/
def outlived : Fin 3 → Task UInt64
  | 0 => Sample.event .begin 9
  | 1 => Sample.event .commitFailed 9
  | 2 => Sample.select (Sample.txCall 9 "SELECT 1")

/-- The result of a query in a transaction gets into the backend although nobody commits. -/
theorem result_outlives_failed_commit :
    ∃ (d : Sample.State (Fin 3)) (s : History UInt64 (Fin 3)) (k : String) (bytes : Bytes)
      (ttl : Duration) (r : Except CacheError Unit),
      Reaches (Sample.steps (Fin 3) Sample.deferring) Restriction.none
        (Sample.start Sample.deferring outlived) d ∧
      ⟨2, .backend (.put k bytes ttl), r⟩ :: s <:+ d.history ∧
      (Sample.txCall 9 "SELECT 1").rb.isInTransaction = true ∧
      ∀ t txId, outlived t ≠ .hook (.onEvent ⟨.commitSuccess, txId⟩) := by
  obtain ⟨d, run, seen⟩ := play_observed (M := Sample.steps (Fin 3) Sample.deferring)
    (A := Restriction.none) (c := Sample.start Sample.deferring outlived)
    (List.replicate 3 (0, Sample.reading 7) ++ List.replicate 3 (1, Sample.reading 7) ++
      List.replicate 21 (2, Sample.reading 7))
    (fun d => d.history.any fun e => decide (e.task = 2) && e.op.isPut) (by decide +kernel)
  obtain ⟨s, k, bytes, ttl, r, put⟩ := exists_put seen
  refine ⟨d, s, k, bytes, ttl, r, run, put, Sample.txCall_inside _ _, fun t txId h => ?_⟩
  match t with
  | 0 | 1 | 2 => cases h

end RbatisCache.RbatisInterceptor
