import Mathlib.Data.Fintype.Basic
import RbatisCache.RbatisInterceptor.Invalidations

/-! Transactions that come one event after the other. The mark that a DML leaves in the buffer of its
transaction is cashed exactly once, when the listener handles the commit. -/
namespace RbatisCache.RbatisInterceptor
open Interleaving
open Interleaving.Prog (bind_eq perform_bind pure_eq)
open RbatisCacheInterceptor

section
variable {V T : Type}

/-- The transaction that a hook call belongs to. -/
def Hook.transaction : Hook V → Option Int
  | .before call _ | .after call _ => if call.rb.isInTransaction then some call.taskId else none
  | .onEvent event => some event.txId

def Task.transaction : Task V → Option Int
  | .statement (.query call) | .statement (.exec call) =>
    if call.rb.isInTransaction then some call.taskId else none
  | .hook h => h.transaction

def TransactionEventType.ends : TransactionEventType → Bool
  | .begin => false
  | .commitSuccess | .commitFailed | .rollback | .rollbackFailed => true

/-- Some hook call of the transaction has been entered. -/
def Known (h : History V T) (tx : Int) : Prop :=
  ∃ t hook, ⟨t, .enter hook, ()⟩ ∈ h ∧ hook.transaction = some tx

/-- `Begin` has been handled. -/
def Begun (h : History V T) (tx : Int) : Prop :=
  ∃ t reply, ⟨t, .leave (.onEvent ⟨.begin, tx⟩) reply, ()⟩ ∈ h

/-- A terminal event has been raised. -/
def Ending (h : History V T) (tx : Int) : Prop :=
  ∃ t type, type.ends = true ∧ ⟨t, .enter (.onEvent ⟨type, tx⟩), ()⟩ ∈ h

/-- A terminal event has been handled. -/
def Ended (h : History V T) (tx : Int) : Prop :=
  ∃ t type reply, type.ends = true ∧ ⟨t, .leave (.onEvent ⟨type, tx⟩) reply, ()⟩ ∈ h

/-- An exec of the transaction has changed rows. -/
def Wrote (h : History V T) (tx : Int) : Prop :=
  ∃ t call er, ⟨t, .enter (.after call (.exec (.ok er))), ()⟩ ∈ h ∧
    call.rb.isInTransaction = true ∧ call.taskId = tx ∧ 0 < er.rowsAffected

/-- When a hook call may be entered: first `Begin`, then the hook calls of the statements, and when
nobody is inside one of these any more, one terminal event. -/
def Timely [DecidableEq T] (hook : Hook V) (h : History V T) : Prop :=
  ∀ tx, hook.transaction = some tx →
    match hook with
    | .before _ _ | .after _ _ => Begun h tx ∧ ¬ Ending h tx
    | .onEvent event =>
      if event.eventType.ends = true then
        Begun h tx ∧ ¬ Ending h tx ∧
          ∀ t hook', phase (h.own t) = .inside hook' → hook'.transaction ≠ some tx
      else ¬ Known h tx

def TxOrder [DecidableEq T] {B : CacheBackend} :
    Restriction T (Op V) Op.Res (Choice B V) (World B V) :=
  fun _ op _ _ h => ∀ hook, op = .enter hook → Timely hook h

section Decidability

def Op.entered : Op V → Option (Hook V)
  | .enter hook => some hook
  | _ => none

def Op.left : Op V → Option (Hook V)
  | .leave hook _ => some hook
  | _ => none

/-- The transaction that a hook call ends. -/
def Hook.ending : Hook V → Option Int
  | .onEvent event => if event.eventType.ends = true then some event.txId else none
  | .before _ _ | .after _ _ => none

def Phase.hook : Phase V → Option (Hook V)
  | .inside hook => some hook
  | .idle | .left _ _ | .performed => none

private theorem exists_entered {h : History V T} {P : Hook V → Prop} :
    (∃ e ∈ h, ∃ hook ∈ e.op.entered, P hook) ↔ ∃ t hook, ⟨t, .enter hook, ()⟩ ∈ h ∧ P hook := by
  constructor
  · rintro ⟨⟨t, op, r⟩, hm, hook, hop, hp⟩
    cases op with
    | enter hook' =>
      cases hop
      exact ⟨t, hook, hm, hp⟩
    | _ => cases hop
  · rintro ⟨t, hook, hm, hp⟩
    exact ⟨_, hm, hook, rfl, hp⟩

theorem Hook.ending_eq_some {hook : Hook V} {tx : Int} :
    hook.ending = some tx ↔ ∃ type : TransactionEventType, type.ends = true ∧
      hook = .onEvent ⟨type, tx⟩ := by
  constructor
  · intro h
    cases hook with
    | before | after => cases h
    | onEvent event =>
      obtain ⟨ends, same⟩ := Option.ite_none_right_eq_some.mp h
      cases same
      exact ⟨event.eventType, ends, rfl⟩
  · rintro ⟨type, ends, rfl⟩
    simp [ending, ends]

instance (h : History V T) (tx : Int) : Decidable (Known h tx) :=
  decidable_of_iff _ exists_entered

instance [DecidableEq V] (h : History V T) (tx : Int) : Decidable (Begun h tx) :=
  decidable_of_iff (∃ e ∈ h, e.op.left = some (.onEvent ⟨.begin, tx⟩)) <| by
    constructor
    · rintro ⟨⟨t, op, r⟩, hm, hop⟩
      cases op with
      | leave hook reply =>
        cases hop
        exact ⟨t, reply, hm⟩
      | _ => cases hop
    · rintro ⟨t, reply, hm⟩
      exact ⟨_, hm, rfl⟩

instance (h : History V T) (tx : Int) : Decidable (Ending h tx) :=
  decidable_of_iff (∃ e ∈ h, ∃ hook ∈ e.op.entered, hook.ending = some tx) <| by
    rw [exists_entered]
    constructor
    · rintro ⟨t, hook, hm, he⟩
      obtain ⟨type, ends, rfl⟩ := Hook.ending_eq_some.mp he
      exact ⟨t, type, ends, hm⟩
    · rintro ⟨t, type, ends, hm⟩
      exact ⟨t, _, hm, Hook.ending_eq_some.mpr ⟨type, ends, rfl⟩⟩

/-- Nobody is inside a hook call of the transaction. -/
theorem nobody_inside [DecidableEq T] {h : History V T} {tx : Int} :
    (∀ t, ∀ hook ∈ (phase (h.own t)).hook, hook.transaction ≠ some tx) ↔
      ∀ t hook, phase (h.own t) = .inside hook → hook.transaction ≠ some tx := by
  constructor
  · intro hn t hook hp
    exact hn t hook (by rw [hp]; rfl)
  · intro hn t hook hp
    refine hn t hook ?_
    cases hphase : phase (h.own t) with
    | inside hook' =>
      rw [hphase] at hp
      cases hp
      rfl
    | _ =>
      rw [hphase] at hp
      cases hp

instance [DecidableEq V] [DecidableEq T] [Fintype T] :
    ∀ (hook : Hook V) (h : History V T), Decidable (Timely hook h)
  | .before call result, h => inferInstanceAs (Decidable (∀ tx ∈ (Hook.before call result).transaction,
      Begun h tx ∧ ¬ Ending h tx))
  | .after call result, h => inferInstanceAs (Decidable (∀ tx ∈ (Hook.after call result).transaction,
      Begun h tx ∧ ¬ Ending h tx))
  | .onEvent event, h =>
    have (tx : Int) : Decidable (∀ t hook', phase (h.own t) = .inside hook' →
        hook'.transaction ≠ some tx) := decidable_of_iff _ nobody_inside
    inferInstanceAs (Decidable (∀ tx ∈ (Hook.onEvent (V := V) event).transaction,
      if event.eventType.ends = true then
        Begun h tx ∧ ¬ Ending h tx ∧
          ∀ t hook', phase (h.own t) = .inside hook' → hook'.transaction ≠ some tx
      else ¬ Known h tx))

instance [DecidableEq V] [DecidableEq T] [Fintype T] {B : CacheBackend} (t : T) (op : Op V)
    (ch : Choice B V) (w : World B V) (h : History V T) : Decidable (TxOrder t op ch w h) :=
  decidable_of_iff (∀ hook ∈ op.entered, Timely hook h) <| by
    constructor
    · rintro hop hook rfl
      exact hop hook rfl
    · intro hop hook he
      cases op with
      | enter hook' =>
        cases he
        exact hop hook rfl
      | _ => cases he

end Decidability

/-- The namespaces whose generation a task has raised, newest first. -/
def bumped (done : Done V) : List String := done.filterMap fun e => e.1.bumped

variable (I : RbatisCacheInterceptor)

/-- Whether it is a namespace's turn to be bumped at the commit of a transaction. -/
def Turn (tx : Int) (n : String) (done : Done V) : Prop :=
  match I.policy.transactionMode with
  | .bypass => n = I.nameSpace ∧ bumped done = []
  | .defer => ∃ buffer, ⟨.removeBuffer tx, some buffer⟩ ∈ done ∧
      (bumped done).reverse ++ [n] <+: buffer.nameSpaces

/-- What the listener has done when it has handled an event. -/
def Handled (event : TransactionEvent) (done : Done V) : Prop :=
  match event.eventType with
  | .begin => I.policy.transactionMode = .defer → ⟨.insertBuffer event.txId, ()⟩ ∈ done
  | .commitSuccess =>
    match I.policy.transactionMode with
    | .bypass => bumped done = [I.nameSpace]
    | .defer => ∃ found, ⟨.removeBuffer event.txId, found⟩ ∈ done ∧
        ((∃ n e, ⟨.backend (.bumpGeneration n), .error e⟩ ∈ done) ∨
          ∀ buffer, found = some buffer → (bumped done).reverse = buffer.nameSpaces)
  | .commitFailed | .rollback | .rollbackFailed => ∃ found, ⟨.removeBuffer event.txId, found⟩ ∈ done

/-- The steps of the listener. -/
def script (event : TransactionEvent) (done : Done V) : Op V → Prop
  | .insertBuffer _ => event.eventType = .begin ∧ done = [⟨.enter (.onEvent event), ()⟩]
  | .removeBuffer _ => event.eventType.ends = true ∧ done = [⟨.enter (.onEvent event), ()⟩]
  | .backend op => event.eventType = .commitSuccess ∧
      ∀ n, op = .bumpGeneration n → Turn I event.txId n done
  | .leave _ _ => Handled I event done
  | _ => True

variable {I} {X : Externals Bytes} {C : ValueCodec V} {done : Done V}

@[simp] theorem bumped_nil : bumped ([] : Done V) = [] := rfl

private theorem bumped_cons_of_not {op : Op V} {r : op.Res} (hop : op.bumped = none) :
    bumped (⟨op, r⟩ :: done) = bumped done := by
  simp [bumped, hop]

private theorem bumped_cons_bump {n : String} {r : (BackendOp.bumpGeneration n).Res} :
    bumped (⟨.backend (.bumpGeneration n), r⟩ :: done) = n :: bumped done := rfl

/-! ### The listener -/

/-- The marked namespaces are bumped in their order, until a bump fails. -/
theorem script_flushNamespaces {event : TransactionEvent} {buffer : TransactionalCacheBuffer V}
    {left : List String} (type : event.eventType = .commitSuccess)
    (mode : I.policy.transactionMode = .defer)
    (removed : ⟨.removeBuffer event.txId, some buffer⟩ ∈ done)
    (rest : (bumped done).reverse ++ left = buffer.nameSpaces) :
    (flushNamespaces left).Obeys (script I event) (fun _ after =>
      ⟨.removeBuffer event.txId, some buffer⟩ ∈ after ∧
        ((∃ n e, ⟨.backend (.bumpGeneration n), .error e⟩ ∈ after) ∨
          (bumped after).reverse = buffer.nameSpaces)) done := by
  induction left generalizing done with
  | nil => exact ⟨removed, .inr (by simpa using rest)⟩
  | cons n left ih =>
    simp only [flushNamespaces, bind_eq, perform_bind, pure_eq]
    refine ⟨⟨type, fun m hm => ?_⟩, fun result => ?_⟩
    · cases hm
      rw [Turn, mode]
      exact ⟨buffer, removed, left, by simpa using rest⟩
    · cases result with
      | error e => exact ⟨List.mem_cons_of_mem _ removed, .inl ⟨n, e, List.mem_cons_self⟩⟩
      | ok =>
        refine ih (List.mem_cons_of_mem _ removed) ?_
        rw [bumped_cons_bump, List.reverse_cons, List.append_assoc]
        exact rest

/-- What is flushed after the bumps bumps nothing. -/
theorem script_flushEntries {event : TransactionEvent} {ttl : Duration}
    {entries : List (CacheKey × V)} {K : Done V → Prop}
    (type : event.eventType = .commitSuccess)
    (grows : ∀ done op (r : op.Res), op.bumped = none → K done → K (⟨op, r⟩ :: done))
    (hd : K done) :
    (flushEntries X C ttl entries).Obeys (script I event) (fun _ after => K after) done := by
  refine obeys_flushes (fun past op r hop h => grows past op r ?_ h) (fun _ _ => trivial)
    (fun _ _ _ _ _ _ _ _ _ _ => ⟨type, nofun⟩) hd
  cases op with
  | nowMs => rfl
  | backend o =>
    cases o with
    | put => rfl
    | _ => cases hop
  | _ => cases hop

private theorem script_onEvent {event : TransactionEvent}
    (hd : done = [⟨.enter (.onEvent event), ()⟩]) :
    (onEvent I X C event).Obeys (script I event) (fun _ after => Handled I event after) done := by
  subst hd
  obtain ⟨type, txId⟩ := event
  unfold onEvent
  simp only [bind_eq, perform_bind, pure_eq]
  cases type with
  | begin =>
    dsimp only
    split
    · exact ⟨⟨rfl, rfl⟩, fun _ _ => List.mem_cons_self⟩
    · next mode => exact fun h => absurd (by simp [h]) mode
  | commitFailed | rollback | rollbackFailed =>
    exact ⟨⟨rfl, rfl⟩, fun found => ⟨found, List.mem_cons_self⟩⟩
  | commitSuccess =>
    dsimp only
    cases mode : I.policy.transactionMode with
    | bypass =>
      refine ⟨⟨rfl, fun n hn => ?_⟩, fun r => ?_⟩
      · cases hn
        rw [Turn, mode]
        exact ⟨rfl, rfl⟩
      · rw [Prog.Obeys, Handled, mode]
        rfl
    | defer =>
      refine ⟨⟨rfl, rfl⟩, fun found => ?_⟩
      match found with
      | none =>
        rw [Prog.Obeys, Handled, mode]
        exact ⟨none, List.mem_cons_self, .inr nofun⟩
      | some buffer =>
        let Flushed (after : Done V) : Prop := ⟨.removeBuffer txId, some buffer⟩ ∈ after ∧
          ((∃ n e, ⟨.backend (.bumpGeneration n), .error e⟩ ∈ after) ∨
            (bumped after).reverse = buffer.nameSpaces)
        have handled (after : Done V) (h : Flushed after) :
            Handled I ⟨.commitSuccess, txId⟩ after := by
          rw [Handled, mode]
          refine ⟨some buffer, h.1, h.2.imp_right fun h b hb => ?_⟩
          cases hb
          exact h
        have grows (done : Done V) (op : Op V) (r : op.Res) (hop : op.bumped = none)
            (h : Flushed done) : Flushed (⟨op, r⟩ :: done) := by
          refine ⟨List.mem_cons_of_mem _ h.1, h.2.imp ?_ fun h => ?_⟩
          · rintro ⟨n, e, hm⟩
            exact ⟨n, e, List.mem_cons_of_mem _ hm⟩
          · rw [bumped_cons_of_not hop]
            exact h
        refine Prog.Obeys.andThen (Q := fun _ after => Flushed after) ?_
          fun _ after h _ => handled after h
        unfold flushTo
        simp only [bind_eq, pure_eq]
        refine (script_flushNamespaces rfl mode List.mem_cons_self rfl).andThen fun a after h _ => ?_
        match a with
        | .error e => exact h
        | .ok _ => exact script_flushEntries rfl grows h

/-- Every task that is a call of the listener keeps to the script. -/
def scripted (I : RbatisCacheInterceptor) (task : Task V) (done : Done V) (op : Op V) : Prop :=
  ∀ event, task = .hook (.onEvent event) → script I event done op

private theorem scripted_program {task : Task V} :
    (task.program I X C).Obeys (scripted I task) (fun _ _ => True) [] := by
  by_cases ht : ∃ event, task = .hook (.onEvent event)
  · obtain ⟨event, rfl⟩ := ht
    have hscript : ((Task.hook (.onEvent event)).program I X C).Obeys (script I event)
        (fun _ _ => True) [] := by
      refine (obeys_invoke_of_hook trivial ?_).andThen fun _ _ _ _ => trivial
      simp only [runHook, bind_eq, pure_eq]
      exact (script_onEvent rfl).andThen fun _ _ h _ => h
    refine hscript.weaken fun done op h event' he => ?_
    cases he
    exact h
  · exact Prog.ensures_true.weaken fun done op _ event he => absurd ⟨event, he⟩ ht

end

/-! ### The course of a transaction -/

section
variable {V T : Type} [DecidableEq T]

/-- The buffer of the transaction has been created. -/
def Inserted (h : History V T) (tx : Int) : Prop := ∃ e ∈ h, e.op = .insertBuffer tx

/-- The buffer of the transaction has been taken away. -/
def Removed (h : History V T) (tx : Int) : Prop := ∃ e ∈ h, e.op = .removeBuffer tx

/-- The buffer of the transaction has been marked. -/
def Marked (h : History V T) (tx : Int) : Prop := ∃ e ∈ h, ∃ n, e.op = .clearNamespace tx n

/-- The protocol of a task, with its brackets, its invalidations and the script of the listener. -/
def transactionRule (I : RbatisCacheInterceptor) (X : Externals Bytes) (C : ValueCodec V)
    (task : Task V) (done : Done V) (op : Op V) : Prop :=
  invalidationRule I X C task done op ∧ scripted I task done op

/-- What the histories of such runs are like. -/
structure Conducted (I : RbatisCacheInterceptor) (X : Externals Bytes) (C : ValueCodec V)
    (tasks : T → Task V) (h : History V T) : Prop where
  lawful : Lawful (fun t => transactionRule I X C (tasks t)) h
  timely : h.Always fun e s => ∀ hook, e.op = .enter hook → Timely hook s

variable {I : RbatisCacheInterceptor} {X : Externals Bytes} {C : ValueCodec V} {tasks : T → Task V}
variable {h s : History V T} {tx : Int} {t : T}

theorem Conducted.suffix (hc : Conducted I X C tasks h) (hs : s <:+ h) : Conducted I X C tasks s :=
  ⟨hc.lawful.suffix hs, hc.timely.suffix hs⟩

theorem Conducted.bracketed (hc : Conducted I X C tasks h) : Bracketed h :=
  fun e s hs => (hc.lawful e s hs).1.2.1

/-- Who leaves a hook call has entered it. -/
theorem Conducted.entered (hc : Conducted I X C tasks h) {hook : Hook V}
    {reply : Except String (Action V)} {q : History V T} (hl : ⟨t, .leave hook reply, ()⟩ :: q <:+ h) :
    ⟨t, .enter hook, ()⟩ ∈ q :=
  History.mem_own.mp (entered_of_inside (hc.bracketed _ _ hl))

theorem Conducted.listener (hc : Conducted I X C tasks h) {event : TransactionEvent}
    (he : ⟨t, .enter (.onEvent event), ()⟩ ∈ h) : tasks t = .hook (.onEvent event) := by
  obtain ⟨q, hq⟩ := History.exists_suffix_of_mem he
  exact Task.eq_hook_of_enters (hc.lawful _ _ hq).1.1

omit [DecidableEq T] in
theorem Begun.mono (hb : Begun s tx) (hs : s <:+ h) : Begun h tx := by
  obtain ⟨t, reply, hm⟩ := hb
  exact ⟨t, reply, hs.subset hm⟩

theorem Conducted.begun_of_ending (hc : Conducted I X C tasks h) (he : Ending h tx) : Begun h tx := by
  obtain ⟨t, type, ends, hm⟩ := he
  obtain ⟨q, hq⟩ := History.exists_suffix_of_mem hm
  have timely := hc.timely _ _ hq _ rfl tx rfl
  simp only [ends, if_true] at timely
  exact timely.1.mono ((List.suffix_cons _ _).trans hq)

theorem Conducted.remover (hc : Conducted I X C tasks h) {found : Option (TransactionalCacheBuffer V)}
    {q : History V T} (hr : ⟨t, .removeBuffer tx, found⟩ :: q <:+ h) :
    ∃ type : TransactionEventType, type.ends = true ∧ ⟨t, .enter (.onEvent ⟨type, tx⟩), ()⟩ ∈ q ∧
      q.own t = [⟨.enter (.onEvent ⟨type, tx⟩), ()⟩] := by
  have hq : q <:+ h := (List.suffix_cons _ _).trans hr
  obtain ⟨⟨⟨⟨type, tx'⟩, entered, rfl⟩, -, -⟩, hscript⟩ := hc.lawful _ _ hr
  have mem := History.mem_own.mp entered
  obtain ⟨ends, hown⟩ := hscript _ ((hc.suffix hq).listener mem)
  exact ⟨type, ends, mem, hown⟩

theorem Conducted.ending_of_removed (hc : Conducted I X C tasks h) (hr : Removed h tx) :
    Ending h tx := by
  obtain ⟨⟨t, op, found⟩, hm, rfl⟩ := hr
  obtain ⟨q, hq⟩ := History.exists_suffix_of_mem hm
  obtain ⟨type, ends, entered, -⟩ := hc.remover hq
  exact ⟨t, type, ends, ((List.suffix_cons _ _).trans hq).subset entered⟩

theorem Conducted.wrote_of_marked (hc : Conducted I X C tasks h) (hm : Marked h tx) : Wrote h tx := by
  obtain ⟨⟨t, op, r⟩, hm, n, rfl⟩ := hm
  obtain ⟨q, hq⟩ := History.exists_suffix_of_mem hm
  obtain ⟨⟨⟨call, dml, inside, -, taskId⟩, -⟩, -⟩ := hc.lawful _ _ hq
  obtain ⟨er, entered, rows⟩ := dml.entered
  exact ⟨t, call, er, ((List.suffix_cons _ _).trans hq).subset (History.mem_own.mp entered), inside,
    taskId, rows⟩

theorem Conducted.begun_of_wrote (hc : Conducted I X C tasks h) (hw : Wrote h tx) : Begun h tx := by
  obtain ⟨t, call, er, hm, inside, taskId, -⟩ := hw
  obtain ⟨q, hq⟩ := History.exists_suffix_of_mem hm
  have timely := hc.timely _ _ hq _ rfl tx (by simp [Hook.transaction, inside, taskId])
  exact timely.1.mono ((List.suffix_cons _ _).trans hq)

theorem Conducted.inserted_of_begun (hc : Conducted I X C tasks h)
    (mode : I.policy.transactionMode = .defer) (hb : Begun h tx) : Inserted h tx := by
  obtain ⟨t, reply, hm⟩ := hb
  obtain ⟨q, hq⟩ := History.exists_suffix_of_mem hm
  have hqh : q <:+ h := (List.suffix_cons _ _).trans hq
  have task := (hc.suffix hqh).listener (hc.entered hq)
  have handled : Handled I ⟨.begin, tx⟩ (History.own q t) := (hc.lawful _ _ hq).2 _ task
  exact ⟨_, hqh.subset (History.mem_own.mp (handled mode)), rfl⟩

/-- Of two hook calls of which neither can be entered after the other there is only one. -/
theorem Conducted.once (hc : Conducted I X C tasks h) {hook hook' : Hook V} {t' : T}
    (he : ⟨t, .enter hook, ()⟩ ∈ h) (he' : ⟨t', .enter hook', ()⟩ ∈ h)
    (excludes : ∀ s, Timely hook s → ⟨t', .enter hook', ()⟩ ∉ s)
    (excludes' : ∀ s, Timely hook' s → ⟨t, .enter hook, ()⟩ ∉ s) : t = t' := by
  obtain ⟨p, hp⟩ := History.exists_suffix_of_mem he
  obtain ⟨q, hq⟩ := History.exists_suffix_of_mem he'
  rcases List.suffix_or_suffix_of_suffix hp hq with hs | hs
  · rcases List.suffix_cons_iff.mp hs with hs | hs
    · cases hs
      rfl
    · exact absurd (hs.subset List.mem_cons_self) (excludes' _ (hc.timely _ _ hq _ rfl))
  · rcases List.suffix_cons_iff.mp hs with hs | hs
    · cases hs
      rfl
    · exact absurd (hs.subset List.mem_cons_self) (excludes _ (hc.timely _ _ hp _ rfl))

theorem Conducted.begin_once (hc : Conducted I X C tasks h) {t' : T}
    (he : ⟨t, .enter (.onEvent ⟨.begin, tx⟩), ()⟩ ∈ h)
    (he' : ⟨t', .enter (.onEvent ⟨.begin, tx⟩), ()⟩ ∈ h) : t = t' := by
  have excludes (t : T) (s : History V T) (ht : Timely (.onEvent ⟨.begin, tx⟩) s) :
      ⟨t, .enter (.onEvent ⟨.begin, tx⟩), ()⟩ ∉ s := fun hm => ht tx rfl ⟨t, _, hm, rfl⟩
  exact hc.once he he' (excludes t') (excludes t)

theorem Conducted.ending_once (hc : Conducted I X C tasks h) {t' : T}
    {type type' : TransactionEventType} (ends : type.ends = true) (ends' : type'.ends = true)
    (he : ⟨t, .enter (.onEvent ⟨type, tx⟩), ()⟩ ∈ h)
    (he' : ⟨t', .enter (.onEvent ⟨type', tx⟩), ()⟩ ∈ h) : t = t' := by
  have excludes {type type' : TransactionEventType} (ends : type.ends = true)
      (ends' : type'.ends = true) (t : T) (s : History V T) (ht : Timely (.onEvent ⟨type, tx⟩) s) :
      ⟨t, .enter (.onEvent ⟨type', tx⟩), ()⟩ ∉ s := by
    intro hm
    have timely := ht tx rfl
    simp only [ends, if_true] at timely
    exact timely.2.1 ⟨t, type', ends', hm⟩
  exact hc.once he he' (excludes ends ends' t') (excludes ends' ends t)

/-- While `Begin` is being handled nothing else of the transaction has happened. -/
theorem Conducted.not_begun (hc : Conducted I X C tasks h)
    (hown : h.own t = [⟨.enter (.onEvent ⟨.begin, tx⟩), ()⟩]) : ¬ Begun h tx := by
  rintro ⟨t', reply, hm⟩
  obtain ⟨q, hq⟩ := History.exists_suffix_of_mem hm
  have hqh : q <:+ h := (List.suffix_cons _ _).trans hq
  have entered : ⟨t, .enter (.onEvent ⟨.begin, tx⟩), ()⟩ ∈ h := by
    rw [← History.mem_own, hown]
    exact List.mem_cons_self
  obtain rfl := hc.begin_once entered (hqh.subset (hc.entered hq))
  rw [← History.mem_own, hown] at hm
  simp at hm

/-! ### The buffers of the transactions -/

/-- The marks of a buffer are those of its transaction. -/
def MarksOf (I : RbatisCacheInterceptor) (h : History V T) (tx : Int)
    (buffer : TransactionalCacheBuffer V) : Prop :=
  ∀ n, n ∈ buffer.nameSpaces ↔ n = I.nameSpace ∧ Marked h tx

/-- A transaction has a buffer from the moment it is created to the moment it is taken away. -/
structure Tables (I : RbatisCacheInterceptor) {B : CacheBackend} (w : World B V) (h : History V T) :
    Prop where
  member : ∀ tx, (w.txBuffers.lookup tx).isSome = true ↔ Inserted h tx ∧ ¬ Removed h tx
  marks : ∀ tx buffer, w.txBuffers.lookup tx = some buffer → MarksOf I h tx buffer
  removed : h.Always fun e s => ∀ t tx found, e = ⟨t, .removeBuffer tx, found⟩ →
    (found.isSome = true ↔ Inserted s tx ∧ ¬ Removed s tx) ∧
      ∀ buffer, found = some buffer → MarksOf I s tx buffer

section
variable {op : Op V} {r : op.Res}

omit [DecidableEq T] in
private theorem inserted_cons :
    Inserted (⟨t, op, r⟩ :: h) tx ↔ op = .insertBuffer tx ∨ Inserted h tx := by
  simp [Inserted]

omit [DecidableEq T] in
private theorem removed_cons : Removed (⟨t, op, r⟩ :: h) tx ↔ op = .removeBuffer tx ∨ Removed h tx := by
  simp [Removed]

omit [DecidableEq T] in
private theorem marked_cons :
    Marked (⟨t, op, r⟩ :: h) tx ↔ (∃ n, op = .clearNamespace tx n) ∨ Marked h tx := by
  simp [Marked]

end

omit [DecidableEq T] in
/-- What does not concern the buffer of a transaction leaves its marks alone. -/
theorem MarksOf.frame {op : Op V} {r : op.Res} {buffer : TransactionalCacheBuffer V}
    (hm : MarksOf I h tx buffer) (hop : ∀ n, op ≠ .clearNamespace tx n) :
    MarksOf I (⟨t, op, r⟩ :: h) tx buffer := by
  intro n
  rw [hm n, marked_cons]
  simp [hop]

/-- Whoever creates a buffer handles `Begin`, before anything else of the transaction happens. -/
theorem Conducted.not_begun_of_insert (hc : Conducted I X C tasks h)
    (hr : transactionRule I X C (tasks t) (h.own t) (.insertBuffer tx)) : ¬ Begun h tx := by
  obtain ⟨⟨⟨-, entered⟩, -, -⟩, hscript⟩ := hr
  have task := hc.listener (History.mem_own.mp entered)
  exact hc.not_begun (hscript _ task).2

section
variable {B : CacheBackend} {w u : World B V} {op : Op V} {ch : Choice B V} {r : op.Res}

/-- A step leaves the buffers of the transactions that have begun and not ended. -/
theorem Tables.member_step (hc : Conducted I X C tasks h) (hi : Tables I w h)
    (hr : transactionRule I X C (tasks t) (h.own t) op)
    (hm : (machine B V T I).perform t op ch w = some (r, u)) :
    (u.txBuffers.lookup tx).isSome = true ↔
      Inserted (⟨t, op, r⟩ :: h) tx ∧ ¬ Removed (⟨t, op, r⟩ :: h) tx := by
  rw [txBuffers_of_perform hm tx, inserted_cons, removed_cons]
  have member := hi.member tx
  cases op with
  | insertBuffer x =>
    by_cases hx : x = tx
    · subst hx
      have unremoved : ¬ Removed h x := fun hr' =>
        hc.not_begun_of_insert hr (hc.begun_of_ending (hc.ending_of_removed hr'))
      simp [Op.onBuffer, unremoved]
    · simpa [Op.onBuffer, hx, Ne.symm hx] using member
  | removeBuffer x =>
    by_cases hx : x = tx
    · subst hx
      simp [Op.onBuffer]
    · simpa [Op.onBuffer, hx, Ne.symm hx] using member
  | bufferPut x key v =>
    by_cases hx : tx = x
    · simpa only [Op.onBuffer, hx, if_true, Option.isSome_map, reduceCtorEq, false_or] using member
    · simpa [Op.onBuffer, hx] using member
  | clearNamespace x n =>
    by_cases hx : tx = x
    · simpa only [Op.onBuffer, hx, if_true, Option.isSome_map, reduceCtorEq, false_or] using member
    · simpa [Op.onBuffer, hx] using member
  | _ => simpa [Op.onBuffer] using member

/-- A step leaves every buffer with the marks of the writes of its transaction. -/
theorem Tables.marks_step (hc : Conducted I X C tasks h) (hi : Tables I w h)
    (hr : transactionRule I X C (tasks t) (h.own t) op)
    (hm : (machine B V T I).perform t op ch w = some (r, u))
    {buffer : TransactionalCacheBuffer V} (hb : u.txBuffers.lookup tx = some buffer) :
    MarksOf I (⟨t, op, r⟩ :: h) tx buffer := by
  rw [txBuffers_of_perform hm tx] at hb
  have marks := hi.marks tx
  cases op with
  | insertBuffer x =>
    by_cases hx : tx = x
    · subst hx
      simp only [Op.onBuffer, if_true, Option.some.injEq] at hb
      have unmarked : ¬ Marked h tx := fun hm' =>
        hc.not_begun_of_insert hr (hc.begun_of_wrote (hc.wrote_of_marked hm'))
      intro n
      simp [← hb, marked_cons, unmarked]
    · simp only [Op.onBuffer, hx, if_false] at hb
      exact (marks buffer hb).frame fun _ => by simp
  | removeBuffer x =>
    by_cases hx : tx = x
    · simp [Op.onBuffer, hx] at hb
    · simp only [Op.onBuffer, hx, if_false] at hb
      exact (marks buffer hb).frame fun _ => by simp
  | bufferPut x key v =>
    by_cases hx : tx = x
    · simp only [Op.onBuffer, hx, if_true] at hb
      obtain ⟨old, hold, rfl⟩ := Option.map_eq_some_iff.mp hb
      exact (marks old hold).frame fun _ => by simp
    · simp only [Op.onBuffer, hx, if_false] at hb
      exact (marks buffer hb).frame fun _ => by simp
  | clearNamespace x n =>
    by_cases hx : tx = x
    · subst hx
      simp only [Op.onBuffer, if_true] at hb
      obtain ⟨old, hold, rfl⟩ := Option.map_eq_some_iff.mp hb
      obtain rfl : n = I.nameSpace := hr.1.2.2
      intro m
      rw [TransactionalCacheBuffer.mem_nameSpaces_clearNamespace, marks old hold m, marked_cons]
      by_cases hmn : m = I.nameSpace <;> simp [hmn]
    · simp only [Op.onBuffer, hx, if_false] at hb
      refine (marks buffer hb).frame fun m hm => hx ?_
      cases hm
      rfl
  | _ => exact (marks buffer hb).frame fun _ => by simp

theorem Tables.step (hc : Conducted I X C tasks h) (hi : Tables I w h)
    (hr : transactionRule I X C (tasks t) (h.own t) op)
    (hm : (machine B V T I).perform t op ch w = some (r, u)) : Tables I u (⟨t, op, r⟩ :: h) where
  member _ := hi.member_step hc hr hm
  marks _ _ hb := hi.marks_step hc hr hm hb
  removed := by
    refine hi.removed.cons fun t' tx found he => ?_
    cases he
    have hfound : w.txBuffers.lookup tx = found := congrArg Prod.fst (Option.some.inj hm)
    rw [← hfound]
    exact ⟨hi.member tx, hi.marks tx⟩

end

/-- When a terminal event is raised, the writes of the transaction have left their mark. -/
theorem Conducted.marked_of_wrote (hc : Conducted I X C tasks h)
    (mode : I.policy.transactionMode = .defer) {type : TransactionEventType} {p : History V T}
    (ends : type.ends = true) (hp : ⟨t, .enter (.onEvent ⟨type, tx⟩), ()⟩ :: p <:+ h)
    (hw : Wrote h tx) : Marked p tx := by
  obtain ⟨t', call, er, hm, inside, taskId, rows⟩ := hw
  obtain ⟨x, hx⟩ := History.exists_suffix_of_mem hm
  have belongs : (Hook.after call (.exec (.ok er)) : Hook V).transaction = some tx := by
    simp [Hook.transaction, inside, taskId]
  have before := hc.timely _ _ hx _ rfl tx belongs
  -- the `after` has been entered before the event was raised
  have earlier : ⟨t', .enter (.after call (.exec (.ok er))), ()⟩ ∈ p := by
    rcases List.suffix_or_suffix_of_suffix hx hp with hs | hs
    · rcases List.suffix_cons_iff.mp hs with hs | hs
      · cases hs
      · exact hs.subset List.mem_cons_self
    · rcases List.suffix_cons_iff.mp hs with hs | hs
      · cases hs
      · exact absurd ⟨t, type, ends, hs.subset List.mem_cons_self⟩ before.2
  have hph : p <:+ h := (List.suffix_cons _ _).trans hp
  have timely := hc.timely _ _ hp _ rfl tx rfl
  simp only [ends, if_true] at timely
  rcases left_of_entered (hc.suffix hph).bracketed earlier with hin | ⟨reply, hl⟩
  · exact absurd belongs (timely.2.2 t' _ hin)
  · obtain ⟨q, hq⟩ := History.exists_suffix_of_mem hl
    have marked := ((hc.lawful _ _ (hq.trans hph)).1.2.2 rows).inside inside mode
    rw [taskId] at marked
    exact ⟨_, ((List.suffix_cons _ _).trans hq).subset (History.mem_own.mp marked), _, rfl⟩

/-- The terminal event of a transaction finds its buffer, with its marks. -/
theorem Conducted.found (hc : Conducted I X C tasks h) (mode : I.policy.transactionMode = .defer)
    {found : Option (TransactionalCacheBuffer V)} {q : History V T}
    (hr : ⟨t, .removeBuffer tx, found⟩ :: q <:+ h)
    (removed : found.isSome = true ↔ Inserted q tx ∧ ¬ Removed q tx) : found.isSome = true := by
  have hq := hc.suffix ((List.suffix_cons _ _).trans hr)
  obtain ⟨type, ends, entered, hown⟩ := hc.remover hr
  refine removed.mpr ⟨hq.inserted_of_begun mode (hq.begun_of_ending ⟨t, type, ends, entered⟩), ?_⟩
  rintro ⟨⟨t', op, other⟩, hm, rfl⟩
  obtain ⟨o, ho⟩ := History.exists_suffix_of_mem hm
  obtain ⟨type', ends', entered', -⟩ := hq.remover ho
  obtain rfl := hq.ending_once ends ends' entered (((List.suffix_cons _ _).trans ho).subset entered')
  rw [← History.mem_own, hown] at hm
  simp at hm

theorem Task.transaction_of_call {task : Task V} {call : Call V} (hc : task.call = some call) :
    task.transaction = if call.rb.isInTransaction then some call.taskId else none := by
  cases task with
  | statement s =>
    cases s with
    | query | exec =>
      cases hc
      rfl
  | hook g =>
    cases g with
    | before | after =>
      cases hc
      rfl
    | onEvent => cases hc

/-- Only the listener raises a generation for a transaction, when it commits. -/
theorem Conducted.committer (hc : Conducted I X C tasks h) {n : String}
    {r : (BackendOp.bumpGeneration n).Res} (belongs : (tasks t).transaction = some tx)
    (hb : ⟨t, .backend (.bumpGeneration n), r⟩ :: s <:+ h) :
    tasks t = .hook (.onEvent ⟨.commitSuccess, tx⟩) ∧ Turn I tx n (s.own t) := by
  have hs : s <:+ h := (List.suffix_cons _ _).trans hb
  obtain ⟨⟨bumps, -, -⟩, hscript⟩ := hc.lawful _ _ hb
  cases bumps with
  | @exec call dml outside cleared own =>
    obtain ⟨er, entered, -⟩ := dml.entered
    have lawful : Lawful (fun t => rule I X C (tasks t)) s :=
      fun e q hq => (hc.lawful e q (hq.trans hs)).1.1
    have same := call_of_entered lawful entered
    rw [Task.transaction_of_call same.symm, outside] at belongs
    cases belongs
  | @commit event entered =>
    have task := (hc.suffix hs).listener (History.mem_own.mp entered)
    obtain ⟨type, turn⟩ := hscript _ task
    obtain ⟨kind, txId⟩ := event
    obtain rfl : kind = .commitSuccess := type
    rw [task] at belongs
    obtain rfl : txId = tx := Option.some.inj belongs
    exact ⟨task, turn n rfl⟩

private theorem eq_singleton_of_nodup {α : Type} {l : List α} {a : α} (hl : l.Nodup)
    (ha : ∀ n, n ∈ l ↔ n = a) : l = [a] :=
  List.perm_singleton.mp <| (List.perm_ext_iff_of_nodup hl (List.nodup_singleton a)).mpr fun n => by
    rw [ha, List.mem_singleton]

end

section
variable {B : CacheBackend} {V T : Type} [DecidableEq T] {I : RbatisCacheInterceptor}
variable {X : Externals Bytes} {C : ValueCodec V} {tasks : T → Task V} {state : B.State}
variable {d : Config T (Op V) Op.Res (World B V) (Reply V)}

theorem reaches_conducted (run : Reaches (machine B V T I) TxOrder (initial I X C tasks state) d) :
    Conducted I X C tasks d.history ∧ Tables I d.world d.history := by
  let Inv (w : World B V) (h : History V T) : Prop :=
    (h.Always fun e s => ∀ hook, e.op = .enter hook → Timely hook s) ∧ Tables I w h
  have hp : PreservesLawful (machine B V T I) TxOrder (fun t => transactionRule I X C (tasks t)) Inv := by
    intro t op ch w h r u hl hi hr ha hm
    exact ⟨hi.1.cons ha, hi.2.step ⟨hl, hi.1⟩ hr hm⟩
  have hstart : Inv (initial I X C tasks state).world [] := by
    refine ⟨History.always_nil, fun tx => ?_, fun tx buffer hb => ?_, History.always_nil⟩
    · simp [initial, World.new, Inserted]
    · simp [initial, World.new] at hb
  obtain ⟨hl, hi, -⟩ := run.lawful hp (fun _ =>
    (obeys_program.and (bracketed_program.and invalidates_program)).and scripted_program) rfl hstart
  exact ⟨⟨hl, hi.1⟩, hi.2⟩

private theorem bumps_succeed (H : B.Healthy) {A : Restriction T (Op V) Op.Res (Choice B V) (World B V)}
    (run : Reaches (machine B V T I) A (initial I X C tasks state) d) :
    d.history.Always fun e _ => ∀ t n m, e ≠ ⟨t, .backend (.bumpGeneration n), .error m⟩ := by
  refine run.permitted (fun t op ch w h r u _ hm t' n m he => ?_) rfl
  cases he
  have hs := H.serves (.bumpGeneration n) ch.backend w.backend
  have hr : (B.perform (.bumpGeneration n) ch.backend w.backend).1 = .error m :=
    congrArg Prod.fst (Option.some.inj hm)
  rw [hr] at hs
  cases hs.1

/-- A transaction whose commit raises the generation. -/
def Due (I : RbatisCacheInterceptor) (h : History V T) (tx : Int) : Prop :=
  I.policy.transactionMode = .bypass ∨ Wrote h tx

/-- A bump for a transaction is the only one, of the interceptor's namespace, and it is due. -/
theorem turn_is_due (hc : Conducted I X C tasks d.history) (tables : Tables I d.world d.history)
    {t : T} {tx : Int} {n : String} {s : History V T} (hs : s <:+ d.history)
    (turn : Turn I tx n (History.own s t)) :
    n = I.nameSpace ∧ bumped (History.own s t) = [] ∧ Due I d.history tx := by
  cases mode : I.policy.transactionMode with
  | bypass =>
    rw [Turn, mode] at turn
    exact ⟨turn.1, turn.2, .inl mode⟩
  | defer =>
    rw [Turn, mode] at turn
    obtain ⟨buffer, removed, listed⟩ := turn
    obtain ⟨o, ho⟩ := History.exists_suffix_of_mem_own removed
    have hod : o <:+ d.history := (List.suffix_cons _ _).trans (ho.trans hs)
    have marks := (tables.removed _ _ (ho.trans hs) _ _ _ rfl).2 buffer rfl
    have own (m : String) (hm : m ∈ (bumped (History.own s t)).reverse ++ [n]) :
        m = I.nameSpace ∧ Marked o tx := (marks m).mp (listed.subset hm)
    obtain ⟨rfl, marked⟩ := own n (by simp)
    refine ⟨rfl, List.eq_nil_iff_forall_not_mem.mpr fun m hm => ?_, .inr ?_⟩
    · have nodup := TransactionalCacheBuffer.nodup_nameSpaces.sublist listed.sublist
      have first : m = I.nameSpace :=
        (own m (List.mem_append_left _ (List.mem_reverse.mpr hm))).1
      rw [first, ← List.mem_reverse] at hm
      exact (List.nodup_append.mp nodup).2.2 _ hm _ (List.mem_singleton.mpr rfl) rfl
    · obtain ⟨w, call, er, hw, rest⟩ := (hc.suffix hod).wrote_of_marked marked
      exact ⟨w, call, er, hod.subset hw, rest⟩

/-- A commit that has been handled has raised the generation once, if that was due. -/
theorem bumped_of_handled (H : B.Healthy)
    (run : Reaches (machine B V T I) TxOrder (initial I X C tasks state) d) {t : T} {tx : Int}
    {reply : Except String (Action V)} (task : tasks t = .hook (.onEvent ⟨.commitSuccess, tx⟩))
    (left : ⟨t, .leave (.onEvent ⟨.commitSuccess, tx⟩) reply, ()⟩ ∈ d.history)
    (due : Due I d.history tx) : bumped (d.history.own t) = [I.nameSpace] := by
  obtain ⟨hc, tables⟩ := reaches_conducted run
  obtain ⟨q, hq⟩ := History.exists_suffix_of_mem left
  have hqd : q <:+ d.history := (List.suffix_cons _ _).trans hq
  have final : (phase (History.own (⟨t, .leave (.onEvent ⟨.commitSuccess, tx⟩) reply, ()⟩ :: q)
      t)).Final := by
    rw [History.own_cons_self]
    trivial
  rw [own_of_final hc.bracketed hq final, History.own_cons_self, bumped_cons_of_not rfl]
  have handled : Handled I ⟨.commitSuccess, tx⟩ (History.own q t) := (hc.lawful _ _ hq).2 _ task
  cases mode : I.policy.transactionMode with
  | bypass =>
    rw [Handled, mode] at handled
    exact handled
  | defer =>
    rw [Handled, mode] at handled
    obtain ⟨found, removed, failed | flushed⟩ := handled
    · obtain ⟨n, e, hm⟩ := failed
      obtain ⟨o, ho⟩ := History.exists_suffix_of_mem (hqd.subset (History.mem_own.mp hm))
      exact absurd rfl (bumps_succeed H run _ _ ho t n e)
    · obtain ⟨o, ho⟩ := History.exists_suffix_of_mem_own removed
      have hod := ho.trans hqd
      obtain ⟨present, marks⟩ := tables.removed _ _ hod _ _ _ rfl
      obtain ⟨buffer, rfl⟩ := Option.isSome_iff_exists.mp (hc.found mode hod present)
      obtain ⟨type, ends, entered, -⟩ := hc.remover hod
      obtain ⟨p, hp⟩ := History.exists_suffix_of_mem entered
      have wrote : Wrote d.history tx := by
        refine due.resolve_left fun bypass => ?_
        rw [mode] at bypass
        cases bypass
      have hpo := hp.trans ((List.suffix_cons _ _).trans hod)
      have marked : Marked o tx := by
        obtain ⟨e, hm, hop⟩ := hc.marked_of_wrote mode ends hpo wrote
        exact ⟨e, ((List.suffix_cons _ _).trans hp).subset hm, hop⟩
      have once : buffer.nameSpaces = [I.nameSpace] :=
        eq_singleton_of_nodup TransactionalCacheBuffer.nodup_nameSpaces fun n => by
          rw [marks buffer rfl n, and_iff_left marked]
      rw [← List.reverse_reverse (bumped _), flushed buffer rfl, once]
      rfl

/-- The buffers are those of the transactions that have begun and not come to an end, give or take
those whose event is being handled. -/
theorem buffer_of_open (hc : Conducted I X C tasks d.history) (tables : Tables I d.world d.history)
    (tx : Int) :
    (I.policy.transactionMode = .defer → Begun d.history tx → ¬ Ending d.history tx →
      (d.world.txBuffers.lookup tx).isSome = true) ∧
    ((d.world.txBuffers.lookup tx).isSome = true → I.policy.transactionMode = .defer ∧
      (∃ t, ⟨t, .enter (.onEvent ⟨.begin, tx⟩), ()⟩ ∈ d.history) ∧ ¬ Ended d.history tx) := by
  refine ⟨fun mode begun running => ?_, fun present => ?_⟩
  · exact (tables.member tx).mpr
      ⟨hc.inserted_of_begun mode begun, fun removed => running (hc.ending_of_removed removed)⟩
  · obtain ⟨⟨⟨t, op, r⟩, hm, rfl⟩, unremoved⟩ := (tables.member tx).mp present
    obtain ⟨q, hq⟩ := History.exists_suffix_of_mem hm
    have hqd : q <:+ d.history := (List.suffix_cons _ _).trans hq
    obtain ⟨mode, entered⟩ := (hc.lawful _ _ hq).1.1
    refine ⟨mode, ⟨t, hqd.subset (History.mem_own.mp entered)⟩, ?_⟩
    rintro ⟨t', type, reply, ends, hl⟩
    obtain ⟨p, hp⟩ := History.exists_suffix_of_mem hl
    have hpd : p <:+ d.history := (List.suffix_cons _ _).trans hp
    have task := (hc.suffix hpd).listener (hc.entered hp)
    have handled : Handled I ⟨type, tx⟩ (History.own p t') := (hc.lawful _ _ hp).2 _ task
    have removed : ∃ found, ⟨.removeBuffer tx, found⟩ ∈ History.own p t' := by
      cases type with
      | begin => cases ends
      | commitSuccess =>
        rw [Handled, mode] at handled
        obtain ⟨found, hm, -⟩ := handled
        exact ⟨found, hm⟩
      | commitFailed | rollback | rollbackFailed => exact handled
    obtain ⟨found, hf⟩ := removed
    exact unremoved ⟨_, hpd.subset (History.mem_own.mp hf), rfl⟩

/-- The generation counts the bumps. A transaction bumps only when its commit is handled, and then
once, in defer mode if it has changed rows; no other event touches the backend; and the buffers are
those of the open transactions. -/
theorem commits_bump_exactly_once (H : B.Healthy)
    (run : Reaches (machine B V T I) TxOrder (initial I X C tasks state) d) :
    (∀ n, (H.abs d.world.backend).counter n =
      (H.abs state).counter n + UInt64.ofNat (bumps n d.history)) ∧
    (∀ t tx n r s, (tasks t).transaction = some tx →
      ⟨t, .backend (.bumpGeneration n), r⟩ :: s <:+ d.history →
      tasks t = .hook (.onEvent ⟨.commitSuccess, tx⟩) ∧ n = I.nameSpace ∧
        bumped (History.own s t) = [] ∧ Due I d.history tx) ∧
    (∀ t tx reply, tasks t = .hook (.onEvent ⟨.commitSuccess, tx⟩) →
      ⟨t, .leave (.onEvent ⟨.commitSuccess, tx⟩) reply, ()⟩ ∈ d.history → Due I d.history tx →
      bumped (d.history.own t) = [I.nameSpace]) ∧
    (∀ c, Step (machine B V T I) TxOrder d c → ∀ e event, c.history = e :: d.history →
      tasks e.task = .hook (.onEvent event) → event.eventType ≠ .commitSuccess →
      c.world.backend = d.world.backend) ∧
    ∀ tx,
      (I.policy.transactionMode = .defer → Begun d.history tx → ¬ Ending d.history tx →
        (d.world.txBuffers.lookup tx).isSome = true) ∧
      ((d.world.txBuffers.lookup tx).isSome = true → I.policy.transactionMode = .defer ∧
        (∃ t, ⟨t, .enter (.onEvent ⟨.begin, tx⟩), ()⟩ ∈ d.history) ∧ ¬ Ended d.history tx) := by
  obtain ⟨hc, tables⟩ := reaches_conducted run
  refine ⟨fun n => ?_, fun t tx n r s belongs hb => ?_, fun t tx reply task left due =>
    bumped_of_handled H run task left due, fun c step e event he task other => ?_,
    buffer_of_open hc tables⟩
  · obtain ⟨g, hg, hcount⟩ := counter_of_reaches (H := H) (n := n) run
    rw [hcount, hg, show (initial I X C tasks state).history = [] from rfl, List.append_nil]
    rfl
  · obtain ⟨task, turn⟩ := hc.committer belongs hb
    exact ⟨task, turn_is_due hc tables ((List.suffix_cons _ _).trans hb) turn⟩
  · obtain ⟨t, op, r⟩ := e
    obtain ⟨ch, -, -, -, performed⟩ := step.performed he
    refine backend_of_perform (fun o hop => ?_) performed
    subst hop
    have later := (reaches_conducted (run.tail step)).1
    rw [he] at later
    exact other ((later.lawful _ _ (List.suffix_refl _)).2 event task).1

end

/-- The events of one transaction, around a DML. -/
def Sample.transfer : Fin 3 → Task UInt64
  | 0 => Sample.event .begin 9
  | 1 => Sample.dml (Sample.txCall 9 "UPDATE t SET x = 1")
  | 2 => Sample.event .commitSuccess 9

theorem transfer_bumps_once :
    ∃ d : Sample.State (Fin 3),
      Reaches (Sample.steps (Fin 3) Sample.deferring) TxOrder
        (Sample.start Sample.deferring Sample.transfer) d ∧
      bumped (d.history.own 2) = ["ns"] ∧ d.world.txBuffers.lookup 9 = none := by
  let dml := Sample.txCall 9 "UPDATE t SET x = 1"
  let wrote : Event (Fin 3) (Op UInt64) Op.Res := ⟨1, .enter (.after dml (.exec (.ok ⟨1⟩))), ()⟩
  let handled : Event (Fin 3) (Op UInt64) Op.Res :=
    ⟨2, .leave (.onEvent ⟨.commitSuccess, 9⟩) (.ok .next), ()⟩
  obtain ⟨d, run, seen⟩ := play_observed (M := Sample.steps (Fin 3) Sample.deferring) (A := TxOrder)
    (c := Sample.start Sample.deferring Sample.transfer)
    ((List.replicate 3 (0 : Fin 3) ++ List.replicate 7 1 ++ List.replicate 4 2).map (·, Sample.reading 7))
    (fun d => decide (wrote ∈ d.history) && decide (handled ∈ d.history)) (by decide +kernel)
  simp only [Bool.and_eq_true, decide_eq_true_eq] at seen
  have exactly := commits_bump_exactly_once (LocalBackend.healthy Sample.hash) run
  obtain ⟨-, -, once, -, buffers⟩ := exactly
  refine ⟨d, run, ?_, ?_⟩
  · exact once 2 9 (.ok .next) rfl seen.2
      (.inr ⟨1, dml, ⟨1⟩, seen.1, Sample.txCall_inside _ _, rfl, by decide⟩)
  · refine Option.not_isSome_iff_eq_none.mp fun present => ?_
    exact ((buffers 9).2 present).2.2 ⟨2, .commitSuccess, .ok .next, rfl, seen.2⟩

end RbatisCache.RbatisInterceptor
