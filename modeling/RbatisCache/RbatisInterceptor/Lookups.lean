import RbatisCache.RbatisInterceptor.Hooks

/-! How a `before` comes by its answer: the last look into a cache has found it, and the task has not
waited since. What goes into a slot expires one lifetime after the clock that has just been read. -/
namespace RbatisCache.RbatisInterceptor
open Interleaving
open Interleaving.Prog (perform bind_eq perform_bind pure_eq Only Obeys)
open RbatisCacheInterceptor

section
variable {V : Type}

def Op.isLook : Op V → Bool
  | .backend (.get _) | .l1Lookup _ | .pendingGet _ _ => true
  | _ => false

/-- An operation that a task comes to after it may have waited. -/
def Op.resumes : Op V → Bool
  | .enter _ | .awaitNotified _ _ => true
  | _ => false

/-- What a task has done since it may have waited last. -/
def stretch (done : Done V) : Done V := done.takeWhile fun e => !e.1.resumes

/-- The last look into a cache, after which the task has not waited. -/
def Looked (look : Sigma (Op.Res (V := V))) (done : Done V) : Prop :=
  ∃ since rest, done = since ++ look :: rest ∧
    ∀ e ∈ since, e.1.isLook = false ∧ e.1.resumes = false

variable (I : RbatisCacheInterceptor) (X : Externals Bytes) (C : ValueCodec V)

/-- The backend had a fresh envelope with the value. -/
inductive FromL2 (v : V) (done : Done V) : Prop
  | mk {k : String} {bytes : Bytes} {envelope : CacheEnvelope Bytes} {now : UInt64}
      (looked : Looked ⟨.backend (.get k), .ok (some bytes)⟩ done)
      (read : ⟨.nowMs, now⟩ ∈ stretch done)
      (decoded : CacheEnvelope.decode X bytes = .ok envelope)
      (fresh : now < envelope.expiresAtMs)
      (value : C.fromSlice envelope.payload = .ok v)

/-- The look that has answered a query. -/
inductive LookedUp (call : Call V) (v : V) (done : Done V) : Prop
  | buffered {d : String} (transaction : call.rb.isInTransaction = true)
      (mode : I.policy.transactionMode = .defer)
      (looked : Looked ⟨.pendingGet call.taskId d, some v⟩ done)
  | l1 (looked : Looked ⟨.l1Lookup call.rb.id, .live v⟩ done)
  | l2 (found : FromL2 X C v done)

/-- Where the value of a slot comes from. -/
inductive Sourced (v : V) (done : Done V) : Prop
  | loaded {call : Call V} (inside : phase done = .inside (.after call (.query (.ok v))))
  | promoted (found : FromL2 X C v done)

/-- A slot lasts from the clock that the task has just read. -/
structure Timed (entry : L1Entry V) (done : Done V) : Prop where
  lifetime : ∃ now, ⟨.instantNow, now⟩ ∈ stretch done ∧ entry.expiresAt = now + I.policy.ttl.nanos
  source : Sourced X C entry.value done

/-- What a task has looked up before it returns a value and before it fills a slot. -/
def lookups (done : Done V) : Op V → Prop
  | .leave (.before call (.query _)) (.ok (.return v)) => LookedUp I X C call v done
  | .l1Replace _ _ entry | .l1Insert _ _ entry => Timed I X C entry done
  | .awaitNotified _ _ => ∃ call, phase done = .inside (.before call (.query ()))
  | _ => True

variable {I X C} {done : Done V} {call : Call V} {e : Int} {key : CacheKey} {v : V}

theorem Op.resumes_of_isLook {op : Op V} (h : op.isLook = true) : op.resumes = false := by
  cases op with
  | enter | awaitNotified => cases h
  | _ => rfl

theorem stretch_cons {op : Op V} (hop : op.resumes = false) (r : op.Res) :
    stretch (⟨op, r⟩ :: done) = ⟨op, r⟩ :: stretch done := by
  simp [stretch, hop]

theorem stretch_of_resumes {op : Op V} (hop : op.resumes = true) (r : op.Res) :
    stretch (⟨op, r⟩ :: done) = [] := by
  simp [stretch, hop]

theorem Looked.now (op : Op V) (r : op.Res) : Looked ⟨op, r⟩ (⟨op, r⟩ :: done) :=
  ⟨[], done, rfl, fun _ he => by cases he⟩

theorem Looked.cons {look : Sigma (Op.Res (V := V))} (h : Looked look done) {op : Op V}
    (hop : op.isLook = false ∧ op.resumes = false) (r : op.Res) : Looked look (⟨op, r⟩ :: done) := by
  obtain ⟨since, rest, rfl, hs⟩ := h
  refine ⟨⟨op, r⟩ :: since, rest, rfl, fun x hx => ?_⟩
  rcases List.mem_cons.mp hx with rfl | hx
  · exact hop
  · exact hs x hx

theorem Looked.mem_stretch {look : Sigma (Op.Res (V := V))} (h : Looked look done)
    (hl : look.1.isLook = true) : look ∈ stretch done := by
  obtain ⟨since, rest, rfl, hs⟩ := h
  have hpass : ∀ x ∈ since, (!x.1.resumes) = true := by
    intro x hx
    rw [(hs x hx).2]
    rfl
  rw [stretch, List.takeWhile_append_of_pos hpass]
  apply List.mem_append_right
  rw [List.takeWhile_cons, Op.resumes_of_isLook hl]
  exact List.mem_cons_self

theorem FromL2.cons (h : FromL2 X C v done) (op : Op V)
    (hop : op.isLook = false ∧ op.resumes = false) (r : op.Res) : FromL2 X C v (⟨op, r⟩ :: done) := by
  obtain ⟨looked, read, decoded, fresh, value⟩ := h
  refine ⟨looked.cons hop r, ?_, decoded, fresh, value⟩
  rw [stretch_cons hop.2]
  exact List.mem_cons_of_mem _ read

/-! ### The programs -/

/-- An operation of which the lookups ask nothing. -/
def Op.Plain : Op V → Prop
  | .leave _ _ | .l1Replace _ _ _ | .l1Insert _ _ _ | .awaitNotified _ _ => False
  | _ => True

theorem Op.Plain.looks : ∀ (past : Done V) (op : Op V), op.Plain → lookups I X C past op := by
  intro past op h
  cases op with
  | leave | l1Replace | l1Insert | awaitNotified => cases h
  | _ => trivial

theorem Op.Listens.plain : ∀ op : Op V, op.Listens → op.Plain := by
  intro op h
  cases op with
  | backend | nowMs | insertBuffer | removeBuffer => trivial
  | _ => cases h

theorem Op.Resolves.plain : ∀ op : Op V, op.Resolves → op.Plain := by
  intro op h
  cases op with
  | backend | record => trivial
  | _ => cases h

theorem Op.Deposits.plain : ∀ op : Op V, op.Deposits → op.Plain := by
  intro op h
  cases op with
  | backend | nowMs | record | bufferPut => trivial
  | _ => cases h

theorem Op.Completes.plain : ∀ op : Op V, op.Completes → op.Plain := by
  intro op h
  cases op with
  | finishLoad | removeLoad => trivial
  | _ => cases h

theorem Op.Drops.plain : ∀ op : Op V, op.Drops → op.Plain := by
  intro op h
  cases op with
  | l1Clear | clearNamespace | backend | record => trivial
  | _ => cases h

private theorem lookups_of_plain {α : Type} {p : Prog (Op V) Op.Res α} (h : p.Only Op.Plain) :
    p.Obeys (lookups I X C) (fun _ _ => True) done :=
  Prog.ensures_true.obeys h Op.Plain.looks

private theorem plain_resolveKey {input : CacheKeyInput} :
    (resolveKey I X input : Code V _).Only Op.Plain :=
  resolves_resolveKey.mono Op.Resolves.plain

private theorem plain_afterStore : (afterStore I X C call key v).Only Op.Plain :=
  deposits_afterStore.mono Op.Deposits.plain

private theorem blind_l1Put {d : String} :
    (l1Put I e d v).Only fun op => op.isLook = false ∧ op.resumes = false := by
  unfold l1Put
  simp only [bind_eq, perform_bind, pure_eq]
  refine ⟨⟨rfl, rfl⟩, fun _ => ⟨⟨rfl, rfl⟩, fun replaced => ?_⟩⟩
  cases replaced with
  | true => trivial
  | false =>
    refine ⟨⟨rfl, rfl⟩, fun oldest => ?_⟩
    cases oldest with
    | none => exact ⟨⟨rfl, rfl⟩, fun _ => trivial⟩
    | some _ => exact ⟨⟨rfl, rfl⟩, fun _ => ⟨⟨rfl, rfl⟩, fun _ => trivial⟩⟩

theorem Sourced.cons (h : Sourced X C v done) (op : Op V) (hi : op.Inner)
    (hop : op.isLook = false ∧ op.resumes = false) (r : op.Res) : Sourced X C v (⟨op, r⟩ :: done) := by
  cases h with
  | loaded inside => exact .loaded ((phase_cons_of_inner hi r).trans inside)
  | promoted found => exact .promoted (found.cons op hop r)

theorem Timed.cons {entry : L1Entry V} (h : Timed I X C entry done) (op : Op V) (hi : op.Inner)
    (hop : op.isLook = false ∧ op.resumes = false) (r : op.Res) :
    Timed I X C entry (⟨op, r⟩ :: done) := by
  obtain ⟨⟨now, read, expiry⟩, source⟩ := h
  refine ⟨⟨now, ?_, expiry⟩, source.cons op hi hop r⟩
  rw [stretch_cons hop.2]
  exact List.mem_cons_of_mem _ read

private theorem lookups_l1Put {d : String} (hs : Sourced X C v done) :
    (l1Put I e d v).Obeys (lookups I X C) (fun _ _ => True) done := by
  unfold l1Put
  simp only [bind_eq, perform_bind, pure_eq]
  refine ⟨trivial, fun now => ?_⟩
  have timed : Timed I X C ⟨v, now + I.policy.ttl.nanos⟩ (⟨.instantNow, now⟩ :: done) := by
    refine ⟨⟨now, ?_, rfl⟩, hs.cons .instantNow trivial ⟨rfl, rfl⟩ now⟩
    rw [stretch_cons rfl]
    exact List.mem_cons_self
  refine ⟨timed, fun replaced => ?_⟩
  cases replaced with
  | true => trivial
  | false =>
    have timed2 := timed.cons (.l1Replace e d ⟨v, now + I.policy.ttl.nanos⟩) trivial
      ⟨rfl, rfl⟩ false
    refine ⟨trivial, fun oldest => ?_⟩
    have timed3 := timed2.cons .l1Oldest trivial ⟨rfl, rfl⟩ oldest
    cases oldest with
    | none => exact ⟨timed3, fun _ => trivial⟩
    | some o =>
      exact ⟨trivial, fun _ => ⟨timed3.cons (.l1Remove o) trivial ⟨rfl, rfl⟩ (), fun _ => trivial⟩⟩

/-- What has been found is still there after its promotion. -/
theorem lookups_promoted {d : String} (h : FromL2 X C v done) : (l1Put I e d v).Obeys
    (lookups I X C) (fun _ after => FromL2 X C v after) done := by
  have kept : (l1Put I e d v).Ensures (fun _ after => FromL2 X C v after) done :=
    blind_l1Put.ensures (fun _ op r hop h => h.cons op hop r) h
  have put := (lookups_l1Put (I := I) (e := e) (d := d) (.promoted h)).and kept
  exact (put.weaken fun _ _ h => h.1).mono fun _ _ h => h.2

private theorem lookups_l1Get : (l1Get e).Obeys (lookups I X C)
    (fun a after => ∀ v, a = some v → Looked ⟨.l1Lookup e, .live v⟩ after) done := by
  unfold l1Get
  simp only [bind_eq, perform_bind, pure_eq]
  refine ⟨trivial, fun looked => ?_⟩
  match looked with
  | .live v =>
    intro u hu
    cases hu
    exact .now _ _
  | .absent => exact nofun
  | .expired => exact ⟨trivial, fun _ => nofun⟩

/-- A lookup that returns a value has just found it. -/
theorem lookups_lookupValue : (lookupValue I X C e key).Obeys (lookups I X C)
    (fun a after => ∀ v, a = .ok (some v) →
      Looked ⟨.l1Lookup e, .live v⟩ after ∨ FromL2 X C v after) done := by
  unfold lookupValue
  simp only [bind_eq, pure_eq]
  refine (lookups_l1Get (I := I) (X := X) (C := C)).andThen fun a looked hl _ => ?_
  match a with
  | some v =>
    refine ⟨trivial, fun _ u hu => .inl ?_⟩
    cases hu
    exact (hl v rfl).cons ⟨rfl, rfl⟩ _
  | none =>
    simp only [perform_bind]
    refine ⟨trivial, fun result => ?_⟩
    match result with
    | .ok none => exact ⟨trivial, fun _ => nofun⟩
    | .error e =>
      refine ⟨trivial, fun _ => ?_⟩
      dsimp only
      split
      · exact nofun
      · exact nofun
    | .ok (some bytes) =>
      dsimp only
      split
      · exact ⟨trivial, fun _ => nofun⟩
      · next envelope decoded =>
        refine ⟨trivial, fun now => ?_⟩
        dsimp only
        split
        · next hfresh =>
          split
          · next v value =>
            have found : FromL2 X C v (⟨.nowMs, now⟩ ::
                ⟨.backend (.get key.digest), .ok (some bytes)⟩ :: looked) := by
              refine ⟨(Looked.now _ _).cons ⟨rfl, rfl⟩ _, ?_, decoded,
                (CacheEnvelope.isFresh_iff.mp hfresh).2.2, value⟩
              rw [stretch_cons rfl]
              exact List.mem_cons_self
            refine ⟨trivial, fun _ => ?_⟩
            have counted := found.cons (.record .hit) ⟨rfl, rfl⟩ ()
            refine (lookups_promoted counted).andThen fun _ filled hf _ u hu => ?_
            cases hu
            exact .inr hf
          · exact nofun
        · exact ⟨trivial, fun _ => nofun⟩

private theorem lookups_wait {load : LoadId} (hin : phase done = .inside (.before call (.query ()))) :
    (wait load : Code V Unit).Obeys (lookups I X C) (fun _ _ => True) done := by
  unfold wait
  simp only [bind_eq, perform_bind, pure_eq]
  refine ⟨trivial, fun loading => ?_⟩
  cases loading with
  | true => exact ⟨trivial, fun _ => ⟨⟨call, hin⟩, fun _ => trivial⟩⟩
  | false => trivial

private theorem lookups_singleflightLoop {d : String} {remaining : Nat}
    (hin : phase done = .inside (.before call (.query ()))) :
    (singleflightLoop I X C call d remaining).Obeys (lookups I X C)
      (fun a after => ∀ v, a = .ok (.return v) → LookedUp I X C call v after) done := by
  induction remaining generalizing done with
  | zero => exact nofun
  | succ remaining ih =>
    simp only [singleflightLoop, bind_eq, perform_bind, pure_eq]
    refine ⟨trivial, fun role => ?_⟩
    cases role with
    | leader => exact nofun
    | follower load =>
      dsimp only
      split
      · exact nofun
      · have elected : phase (⟨.tryBeginLoad d, .follower load⟩ :: done) = _ := hin
        refine obeys_bind_inside (lookups_wait elected) (local_wait.mono Op.Local.inner)
          fun _ waited _ hw => ?_
        refine obeys_bind_inside (lookups_of_plain plain_resolveKey)
          (reads_resolveKey.mono Op.Reads.inner) fun resolved read _ hr => ?_
        have still : phase read = .inside (.before call (.query ())) := hr.2.trans (hw.2.trans elected)
        cases resolved with
        | error => exact nofun
        | ok key =>
          refine obeys_bind_inside lookups_lookupValue (reads_lookupValue.mono Op.Reads.inner)
            fun a looked hl hc => ?_
          match a with
          | .error _ => exact nofun
          | .ok none => exact ih (hc.2.trans still)
          | .ok (some v) =>
            intro u hu
            cases hu
            exact (hl v rfl).elim .l1 .l2

private theorem lookups_beforeLookup (hin : phase done = .inside (.before call (.query ()))) :
    (beforeLookup I X C call).Obeys (lookups I X C)
      (fun a after => ∀ v, a = .ok (.return v) → LookedUp I X C call v after) done := by
  unfold beforeLookup
  simp only [bind_eq, pure_eq]
  refine obeys_bind_inside (lookups_of_plain plain_resolveKey)
    (reads_resolveKey.mono Op.Reads.inner) fun resolved read _ hr => ?_
  cases resolved with
  | error =>
    dsimp only
    split
    · exact nofun
    · exact nofun
  | ok key =>
    refine obeys_bind_inside lookups_lookupValue (reads_lookupValue.mono Op.Reads.inner)
      fun a looked hl hc => ?_
    match a with
    | .error _ => exact nofun
    | .ok (some v) =>
      intro u hu
      cases hu
      exact (hl v rfl).elim .l1 .l2
    | .ok none =>
      dsimp only
      split
      · exact lookups_singleflightLoop (hc.2.trans (hr.2.trans hin))
      · exact nofun

private theorem lookups_before {result : ResultType Unit Unit}
    (hin : phase done = .inside (.before call result)) :
    (before I X C call result).Obeys (lookups I X C)
      (fun reply after => lookups I X C after (.leave (.before call result) reply)) done := by
  cases result with
  | exec => trivial
  | query =>
    have answers : (before I X C call (.query ())).Obeys (lookups I X C)
        (fun a after => ∀ v, a = .ok (.return v) → LookedUp I X C call v after) done := by
      unfold before
      simp only [bind_eq, pure_eq]
      split
      · exact nofun
      · have buffered : (bufferedValue I X C call).Obeys (lookups I X C)
            (fun a after => ∀ v, a = some v → LookedUp I X C call v after) done := by
          unfold bufferedValue
          simp only [pure_eq]
          split
          · next htx =>
            simp only [Bool.and_eq_true, beq_iff_eq] at htx
            split
            · refine ⟨trivial, fun found v hv => ?_⟩
              subst hv
              exact .buffered htx.1 htx.2 (.now _ _)
            · exact nofun
          · exact nofun
        refine obeys_bind_inside buffered (local_bufferedValue.mono Op.Local.inner)
          fun a probed hp hc => ?_
        cases a with
        | some v =>
          intro u hu
          cases hu
          exact hp v rfl
        | none =>
          dsimp only
          split
          · exact nofun
          · exact lookups_beforeLookup (hc.2.trans hin)
    refine answers.mono fun reply after h => ?_
    match reply with
    | .ok (.return v) => exact h v rfl
    | .ok .next | .error _ => trivial

private theorem lookups_afterQuery {result : Except String V}
    (hin : phase done = .inside (.after call (.query result))) :
    (afterQuery I X C call result).Obeys (lookups I X C) (fun _ _ => True) done := by
  unfold afterQuery
  simp only [bind_eq, pure_eq]
  split
  · trivial
  · refine obeys_bind_inside (lookups_of_plain plain_resolveKey)
      (reads_resolveKey.mono Op.Reads.inner) fun resolved read _ hr => ?_
    cases resolved with
    | error => trivial
    | ok key =>
      refine obeys_bind_inside (lookups_of_plain (completes_completeLoad.mono Op.Completes.plain))
        (local_completeLoad.mono Op.Local.inner) fun _ completed _ hc => ?_
      cases result with
      | error => trivial
      | ok v =>
        have inside : phase completed = .inside (.after call (.query (.ok v))) :=
          hc.2.trans (hr.2.trans hin)
        exact (lookups_l1Put (.loaded inside)).andThen fun _ _ _ _ => lookups_of_plain plain_afterStore

private theorem lookups_runHook {hook : Hook V} (hin : phase done = .inside hook) :
    (runHook I X C hook).Obeys (lookups I X C)
      (fun reply after => lookups I X C after (.leave hook reply)) done := by
  cases hook with
  | before call result => exact lookups_before hin
  | after call result =>
    unfold runHook
    simp only [bind_eq, pure_eq]
    have hafter : (after I X C call result).Obeys (lookups I X C) (fun _ _ => True) done := by
      cases result with
      | query result => exact lookups_afterQuery hin
      | exec result => exact lookups_of_plain (drops_afterExec.mono Op.Drops.plain)
    refine hafter.andThen fun reply _ _ _ => ?_
    cases reply with
    | ok | error => trivial
  | onEvent event =>
    unfold runHook
    simp only [bind_eq, pure_eq]
    exact (lookups_of_plain (listens_onEvent.mono Op.Listens.plain)).andThen fun _ _ _ _ => trivial

theorem lookups_program {task : Task V} :
    (task.program I X C).Obeys (lookups I X C) (fun _ _ => True) done :=
  obeys_program_of_hooks (fun _ _ => trivial) (fun _ _ => trivial) (fun _ _ => trivial)
    fun _ _ => lookups_runHook rfl

end

theorem reaches_lookups {B : CacheBackend} {V T : Type} [DecidableEq T] {I : RbatisCacheInterceptor}
    {X : Externals Bytes} {C : ValueCodec V} {tasks : T → Task V} {state : B.State}
    {A : Restriction T (Op V) Op.Res (Choice B V) (World B V)}
    {d : Config T (Op V) Op.Res (World B V) (Reply V)}
    (run : Reaches (machine B V T I) A (initial I X C tasks state) d) :
    Lawful (fun _ => lookups I X C) d.history := by
  have hc : (initial I X C tasks state).Obeys (fun _ => lookups I X C) fun _ _ _ => True :=
    fun _ => lookups_program
  exact (run.lawful_of_obeys hc rfl).1

end RbatisCache.RbatisInterceptor
