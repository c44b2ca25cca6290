import Mathlib.Data.Fintype.Basic
import RbatisCache.RbatisInterceptor.Layers
import RbatisCache.RbatisInterceptor.Sample

/-! Transactions that read what they have written. A DML in a transaction clears the slot of its
executor at once and leaves the backend and the buffer of the transaction as they are. -/
namespace RbatisCache.RbatisInterceptor
open Interleaving
open RbatisCacheInterceptor

section
variable {V T : Type}

/-- Two statements of one transaction. -/
def SameTx (tasks : T → Task V) (t w : T) : Prop :=
  ∃ c ∈ (tasks t).call, ∃ c' ∈ (tasks w).call, c.rb.isInTransaction = true ∧
    c'.rb.isInTransaction = true ∧ c.taskId = c'.taskId

/-- The executor of a transaction is its own. -/
def Sessions (tasks : T → Task V) : Prop :=
  ∀ t w, ∀ c ∈ (tasks t).call, ∀ c' ∈ (tasks w).call, c.rb.isInTransaction = true →
    (c.rb.id = c'.rb.id ↔ c'.rb.isInTransaction = true ∧ c.taskId = c'.taskId)

/-- Statements, and calls of the listener. -/
def Listening (tasks : T → Task V) : Prop :=
  ∀ t, (∃ s, tasks t = .statement s) ∨ ∃ event, tasks t = .hook (.onEvent event)

def Op.entersBefore : Op V → Bool
  | .enter (.before _ _) => true
  | _ => false

/-- The digest under which an operation finds something in the backend or in a buffer. -/
def finds {B : CacheBackend} (op : Op V) (ch : Choice B V) (w : World B V) : Option String :=
  match op with
  | .backend (.get k) =>
    match (B.perform (.get k) ch.backend w.backend).1 with
    | .ok (some _) => some k
    | _ => none
  | .pendingGet tx d => (w.pendingGet tx d).map fun _ => d
  | _ => none

/-- The task has read the value from the database after a DML had written. -/
def ReadAfter (h : History V T) (t : T) (call : Call V) (v : V) (w : T) : Prop :=
  ∃ s, ⟨t, .databaseQuery call, .ok v⟩ :: s <:+ h ∧ ∃ c r, ⟨w, .databaseExec c, r⟩ ∈ s

variable [DecidableEq T]

/-- The statements of one transaction come one after the other. -/
def Sequential (tasks : T → Task V) {B : CacheBackend} :
    Restriction T (Op V) Op.Res (Choice B V) (World B V) :=
  fun t op _ _ h => op.entersBefore = true → ∀ w, w ≠ t → SameTx tasks t w →
    History.own h w = [] ∨ (phase (History.own h w)).Final

instance (tasks : T → Task V) (t w : T) : Decidable (SameTx tasks t w) :=
  inferInstanceAs (Decidable (∃ c ∈ (tasks t).call, ∃ c' ∈ (tasks w).call,
    c.rb.isInTransaction = true ∧ c'.rb.isInTransaction = true ∧ c.taskId = c'.taskId))

instance [Fintype T] (tasks : T → Task V) {B : CacheBackend} (t : T) (op : Op V) (ch : Choice B V)
    (w : World B V) (h : History V T) : Decidable (Sequential tasks t op ch w h) :=
  inferInstanceAs (Decidable (op.entersBefore = true → ∀ w, w ≠ t → SameTx tasks t w →
    History.own h w = [] ∨ (phase (History.own h w)).Final))

variable (I : RbatisCacheInterceptor) (X : Externals Bytes) (C : ValueCodec V)

/-- Where a query in a transaction finds something, under a digest in the backend or in the buffer,
after a DML of the transaction has cleared its slot, all results that were filed under the digest had
been read after the write. -/
def FindsOwnWrites (tasks : T → Task V) {B : CacheBackend} :
    Restriction T (Op V) Op.Res (Choice B V) (World B V) :=
  fun t op ch w h => ∀ d ∈ finds op ch w, ∀ writer e, SameTx tasks t writer →
    ⟨writer, .l1Clear e, ()⟩ ∈ h → ∀ t' call key v, Filed I X C h t' call key v →
      key.digest = d → ReadAfter h t' call v writer

def ReadsOwnWrites (tasks : T → Task V) {B : CacheBackend} :
    Restriction T (Op V) Op.Res (Choice B V) (World B V) :=
  fun t op ch w h => Sequential tasks t op ch w h ∧ FindsOwnWrites I X C tasks t op ch w h

/-- What the histories of such runs are like. -/
structure InOrder (tasks : T → Task V) (h : History V T) : Prop where
  bracketed : Bracketed h
  sequential : h.Always fun e s => e.op.entersBefore = true → ∀ w, w ≠ e.task →
    SameTx tasks e.task w → s.own w = [] ∨ (phase (s.own w)).Final
  got : h.Always fun e s => ∀ t k b, e = ⟨t, .backend (.get k), .ok (some b)⟩ →
    ∀ writer x, SameTx tasks t writer → ⟨writer, .l1Clear x, ()⟩ ∈ s →
      ∀ t' call key v, Filed I X C s t' call key v → key.digest = k → ReadAfter s t' call v writer
  probed : h.Always fun e s => ∀ t tx d v, e = ⟨t, .pendingGet tx d, some v⟩ →
    ∀ writer x, SameTx tasks t writer → ⟨writer, .l1Clear x, ()⟩ ∈ s →
      ∀ t' call key v, Filed I X C s t' call key v → key.digest = d → ReadAfter s t' call v writer

/-- A slot holds what was read after the writes of all DMLs in transactions that have cleared it. -/
def TxSlot (tasks : T → Task V) (e : Int) (v : V) (h : History V T) : Prop :=
  InOrder I X C tasks h → ∃ t' call key v₀, Filed I X C h t' call key v₀ ∧ Yields C v₀ v ∧
    ∀ w, SameTx tasks w w → ⟨w, .l1Clear e, ()⟩ ∈ h → ReadAfter h t' call v₀ w

variable {I X C} {h s : History V T} {tasks : T → Task V} {t w : T} {v : V}

theorem InOrder.suffix (ho : InOrder I X C tasks h) (hs : s <:+ h) : InOrder I X C tasks s :=
  ⟨ho.bracketed.suffix hs, ho.sequential.suffix hs, ho.got.suffix hs, ho.probed.suffix hs⟩

omit [DecidableEq T] in
theorem ReadAfter.suffix {t' : T} {call : Call V} {v₀ : V} (hr : ReadAfter s t' call v₀ w)
    (hs : s <:+ h) : ReadAfter h t' call v₀ w := by
  obtain ⟨q, hq, hw⟩ := hr
  exact ⟨q, hq.trans hs, hw⟩

omit [DecidableEq T] in
theorem SameTx.symm (same : SameTx tasks t w) : SameTx tasks w t := by
  obtain ⟨c, hc, c', hc', tx, tx', id⟩ := same
  exact ⟨c', hc', c, hc, tx', tx, id.symm⟩

omit [DecidableEq T] in
theorem SameTx.statement (listening : Listening tasks) (same : SameTx tasks t w) :
    ∃ s, tasks t = .statement s := by
  obtain ⟨c, hc, -⟩ := same
  rcases listening t with hs | ⟨event, he⟩
  · exact hs
  · rw [he] at hc
    cases hc

/-- When a statement of a transaction does something after another one has, then the other one had
come to its end before this one started. -/
theorem InOrder.start (ho : InOrder I X C tasks h) (listening : Listening tasks)
    (hl : Lawful (fun t => rule I X C (tasks t)) h) (same : SameTx tasks t w) (hne : w ≠ t)
    {op : Op V} {r : op.Res} {q : History V T} (hy : ⟨t, op, r⟩ :: q <:+ h)
    {x : Event T (Op V) Op.Res} (hx : x ∈ q) (hw : x.task = w) :
    ∃ call result p, ⟨t, .enter (.before call result), ()⟩ :: p <:+ ⟨t, op, r⟩ :: q ∧ x ∈ p := by
  have hq : q <:+ h := (List.suffix_cons _ _).trans hy
  obtain ⟨s, hs⟩ := same.statement listening
  obtain ⟨s', hs'⟩ := same.symm.statement listening
  have hown : History.own (⟨t, op, r⟩ :: q) t ≠ [] := by simp
  have hownw : History.own q w ≠ [] := by
    obtain ⟨y, o, a⟩ := x
    obtain rfl : y = w := hw
    exact List.ne_nil_of_mem (History.mem_own.mpr hx)
  obtain ⟨call, result, p, hp⟩ := exists_start (hl.suffix hy) (ho.bracketed.suffix hy) hs hown
  obtain ⟨call', result', p', hp'⟩ := exists_start (hl.suffix hq) (ho.bracketed.suffix hq) hs' hownw
  refine ⟨call, result, p, hp, ?_⟩
  rcases List.suffix_or_suffix_of_suffix (hp'.trans hq) (hp.trans hy) with hfirst | hfirst
  · -- the other statement was the first to start
    have hp'p : ⟨w, .enter (.before call' result'), ()⟩ :: p' <:+ p := by
      rcases List.suffix_cons_iff.mp hfirst with he | he
      · cases he
        exact absurd rfl hne
      · exact he
    rcases List.suffix_cons_iff.mp hp with he | hpq
    · cases he
      exact hx
    · have hpq := (List.suffix_cons _ _).trans hpq
      rcases ho.sequential _ _ (hp.trans hy) rfl w hne same with hnil | hfinal
      · have hm := History.mem_own.mpr (hp'p.subset List.mem_cons_self)
        rw [hnil] at hm
        cases hm
      · have hsame := own_of_final (ho.bracketed.suffix hq) hpq hfinal
        obtain ⟨y, o, a⟩ := x
        obtain rfl : y = w := hw
        have hm := History.mem_own.mpr hx
        rw [hsame] at hm
        exact History.mem_own.mp hm
  · -- it was the second one, so the first one cannot do anything after that
    exfalso
    have hpp' : ⟨t, .enter (.before call result), ()⟩ :: p <:+ p' := by
      rcases List.suffix_cons_iff.mp hfirst with he | he
      · cases he
        exact absurd rfl hne
      · exact he
    have hp'q := (List.suffix_cons _ _).trans hp'
    rcases ho.sequential _ _ (hp'.trans hq) rfl t hne.symm same.symm with hnil | hfinal
    · have hm := History.mem_own.mpr (hpp'.subset List.mem_cons_self)
      rw [hnil] at hm
      cases hm
    · have hsame := own_of_final (ho.bracketed.suffix hy) (hp'q.trans (List.suffix_cons _ _)) hfinal
      have hle := (History.own_suffix (t := t) hp'q).length_le
      rw [← hsame, History.own_cons_self, List.length_cons] at hle
      omega

/-- Who has cleared a slot in a transaction has written to the database before. -/
theorem wrote_of_cleared (listening : Listening tasks)
    (hl : Lawful (fun t => rule I X C (tasks t)) h) (tx : SameTx tasks w w) {e : Int}
    (hc : ⟨w, .l1Clear e, ()⟩ ∈ h) : (tasks w).isQuery = false ∧ ∃ c ∈ (tasks w).call,
      c.rb.id = e ∧ ∃ r, ⟨w, .databaseExec c, r⟩ ∈ h := by
  obtain ⟨st, hst⟩ := tx.statement listening
  obtain ⟨q, hq⟩ := History.exists_suffix_of_mem hc
  obtain ⟨c, ⟨er, hentered, -⟩, hid⟩ := hl _ _ hq
  have hlq := hl.suffix ((List.suffix_cons _ _).trans hq)
  obtain ⟨p, hp⟩ := History.exists_suffix_of_mem_own hentered
  obtain ⟨rest, hrest⟩ := exec_of_entered hlq hst hp
  have hexec : ⟨.databaseExec c, .ok er⟩ ∈ History.own p w := by
    rw [hrest]
    exact List.mem_cons_self
  have hph : p <:+ h := (List.suffix_cons _ _).trans (hp.trans ((List.suffix_cons _ _).trans hq))
  exact ⟨(isQuery_of_entered hlq hentered).symm, c, (call_of_entered hlq hentered).symm, hid, _,
    hph.subset (History.mem_own.mp hexec)⟩

/-- A query on an executor whose slot a DML of a transaction has cleared belongs to the transaction
and has started after the DML. -/
theorem InOrder.start_after_clear (ho : InOrder I X C tasks h) (listening : Listening tasks)
    (sessions : Sessions tasks) (hl : Lawful (fun t => rule I X C (tasks t)) h)
    (query : (tasks t).isQuery = true) {call : Call V} (hcall : (tasks t).call = some call)
    (tx : SameTx tasks w w) {op : Op V} {r : op.Res} {q : History V T} (hy : ⟨t, op, r⟩ :: q <:+ h)
    (hc : ⟨w, .l1Clear call.rb.id, ()⟩ ∈ q) : SameTx tasks t w ∧
      ∃ call' result p, ⟨t, .enter (.before call' result), ()⟩ :: p <:+ ⟨t, op, r⟩ :: q ∧
        ⟨w, .l1Clear call.rb.id, ()⟩ ∈ p := by
  have hlq := hl.suffix ((List.suffix_cons _ _).trans hy)
  obtain ⟨exec, c, hcw, hid, -⟩ := wrote_of_cleared listening hlq tx hc
  have hne : w ≠ t := by
    rintro rfl
    rw [query] at exec
    cases exec
  obtain ⟨c', hc', -, -, hctx, -, -⟩ := tx
  cases Option.mem_unique hcw hc'
  obtain ⟨htx, htask⟩ := (sessions w t c hcw call hcall hctx).mp hid
  have same : SameTx tasks t w := ⟨call, hcall, c, hcw, htx, hctx, htask.symm⟩
  exact ⟨same, ho.start listening hl same hne hy hc rfl⟩

/-- The write that a read comes after is the only statement of its task. -/
theorem ReadAfter.moment (hr : ReadAfter h t call v w)
    (hl : Lawful (fun t => rule I X C (tasks t)) h) {c : Call V} (hw : (tasks w).call = some c) :
    ∃ m, ⟨t, .databaseQuery call, .ok v⟩ :: m <:+ h ∧ ∃ r, ⟨w, .databaseExec c, r⟩ ∈ m := by
  obtain ⟨m, hm, c', r, hexec⟩ := hr
  obtain ⟨e, he⟩ := History.exists_suffix_of_mem hexec
  have htask : tasks w = .statement (.exec c') :=
    hl _ _ (he.trans ((List.suffix_cons _ _).trans hm))
  rw [htask] at hw
  cases hw
  exact ⟨m, hm, r, hexec⟩

variable {B : CacheBackend} {H : B.Honest}

private theorem txSlot_kept (listening : Listening tasks) (sessions : Sessions tasks)
    (codec : X.RoundTrips)
    {A : Restriction T (Op V) Op.Res (Choice B V) (World B V)} :
    SlotsKept (I := I) (X := X) (C := C) tasks A (TxSlot I X C tasks) H where
  fill := by
    intro t op ch w h r u e d v hl hi hr ha hm hf ho
    have hc : h <:+ ⟨t, op, r⟩ :: h := List.suffix_cons _ _
    have hl' : Lawful (fun t => rule I X C (tasks t)) (⟨t, op, r⟩ :: h) := hl.cons hr
    have hop : op.isEnter = false ∧ ∀ x, op ≠ .l1Clear x := by
      cases hf with
      | replace => exact ⟨rfl, nofun⟩
      | insert => exact ⟨rfl, nofun⟩
    have cleared {w' : T} (hw : ⟨w', .l1Clear e, ()⟩ ∈ (⟨t, op, r⟩ :: h : History V T)) :
        ⟨w', .l1Clear e, ()⟩ ∈ h := by
      rcases List.mem_cons.mp hw with hw | hw
      · cases hw
        exact absurd rfl (hop.2 e)
      · exact hw
    cases hf.fills hr with
    | @promoted call key looks executor digest_eq found =>
      obtain ⟨bytes, q, hq, t', call', origin, v₀, hfiled, hd, -, hy⟩ :=
        hi.served codec (List.suffix_refl _) found
      have hqh : q <:+ ⟨t, op, r⟩ :: h := ((List.suffix_cons _ _).trans hq).trans hc
      refine ⟨t', call', origin, v₀, hfiled.suffix hqh, hy, fun w' tx hw => ?_⟩
      subst executor
      obtain ⟨same, _, _, p, hstart, hclear⟩ := ho.start_after_clear listening sessions hl'
        (isQuery_of_entered hl looks.entered).symm (call_of_entered hl looks.entered).symm tx
        (List.suffix_refl _) (cleared hw)
      have hclq := mem_of_first hl' hstart rfl (hq.trans hc) hclear
      exact (ho.got _ _ (hq.trans hc) t _ _ rfl w' _ same hclq t' call' origin v₀ hfiled hd).suffix hqh
    | @loaded call key resolved executor digest_eq =>
      refine ⟨t, call, key, v, Filed.suffix resolved hc, .inl rfl, fun w' tx hw => ?_⟩
      subst executor
      have hentered := resolved.entered
      obtain ⟨same, _, _, p, hstart, hclear⟩ := ho.start_after_clear listening sessions hl'
        (isQuery_of_entered hl hentered).symm (call_of_entered hl hentered).symm tx
        (List.suffix_refl _) (cleared hw)
      obtain ⟨st, hst⟩ := same.statement listening
      obtain ⟨pa, hpa⟩ := History.exists_suffix_of_mem_own hentered
      obtain ⟨rest, hrest⟩ := read_of_entered hl hst hpa
      obtain ⟨s, hs, -⟩ := History.exists_suffix_of_own (show History.own pa t = [] ++ _ from hrest)
      have hsh := (hs.trans ((List.suffix_cons _ _).trans hpa)).trans hc
      have hlp := hl'.suffix ((List.suffix_cons _ _).trans hstart)
      obtain ⟨-, c, -, -, r', hexec⟩ := wrote_of_cleared listening hlp tx hclear
      exact ⟨s, hsh, c, r', mem_of_first hl' hstart rfl hsh hexec⟩
  keep := by
    intro t op ch w h r u e entry hl hi hr ha hm hw hclear hfill hS ho
    have hc : h <:+ ⟨t, op, r⟩ :: h := List.suffix_cons _ _
    obtain ⟨t', call, key, v₀, hfiled, hy, after⟩ := hS (ho.suffix hc)
    refine ⟨t', call, key, v₀, hfiled.suffix hc, hy, fun w' tx hw' => ?_⟩
    rcases List.mem_cons.mp hw' with hw' | hw'
    · cases hw'
      exact absurd rfl hclear
    · exact (after w' tx hw').suffix hc

private theorem reaches_inOrder {state : B.State} {d : Config T (Op V) Op.Res (World B V) (Reply V)}
    (run : Reaches (machine B V T I) (ReadsOwnWrites I X C tasks) (initial I X C tasks state) d) :
    InOrder I X C tasks d.history where
  bracketed := reaches_bracketed run
  sequential := run.permitted (fun _ _ _ _ _ _ _ ha _ => ha.1) rfl
  got := by
    refine run.permitted (fun t op ch w h r u ha hm t' k b he => ?_) rfl
    cases he
    refine ha.2 k ?_
    have hr : (B.perform (.get k) ch.backend w.backend).1 = .ok (some b) :=
      congrArg Prod.fst (Option.some.inj hm)
    simp [finds, hr]
  probed := by
    refine run.permitted (fun t op ch w h r u ha hm t' tx d v he => ?_) rfl
    cases he
    refine ha.2 d ?_
    have hr : w.pendingGet tx d = some v := congrArg Prod.fst (Option.some.inj hm)
    simp [finds, hr]

/-- A query in a transaction that its `before` answers after a DML of the transaction has completed
is answered with what was read from the database after the write, in every run in which whatever it
finds in the backend and in the buffer was. -/
theorem before_reads_own_writes (listening : Listening tasks) (sessions : Sessions tasks)
    (codec : X.RoundTrips) {state : B.State} (empty : H.abs state = .empty)
    {d : Config T (Op V) Op.Res (World B V) (Reply V)}
    (run : Reaches (machine B V T I) (ReadsOwnWrites I X C tasks) (initial I X C tasks state) d)
    {t w : T} {call c : Call V} {v : V} {er : ExecResult} {reply : Except String (Action V)}
    {s : History V T}
    (answered : ⟨t, .leave (.before call (.query ())) (.ok (.return v)), ()⟩ :: s <:+ d.history)
    (completed : s.Precedes ⟨w, .leave (.after c (.exec (.ok er))) reply, ()⟩
      ⟨t, .enter (.before call (.query ())), ()⟩) (rows : 0 < er.rowsAffected)
    (reads : call.rb.isInTransaction = true) (writes : c.rb.isInTransaction = true)
    (task : call.taskId = c.taskId) :
    ∃ t' call' v₀ q, ⟨t', .databaseQuery call', .ok v₀⟩ :: q <:+ s ∧
      (∃ r, ⟨w, .databaseExec c, r⟩ ∈ q) ∧ Yields C v₀ v := by
  obtain ⟨hl, hi⟩ := reaches_layers (txSlot_kept (H := H) listening sessions codec) empty run
  have hsuf : s <:+ d.history := (List.suffix_cons _ _).trans answered
  have ho := (reaches_inOrder run).suffix hsuf
  have hls := hl.suffix hsuf
  obtain ⟨p, hstart, hleft⟩ := completed
  obtain ⟨pw, hpw⟩ := History.exists_suffix_of_mem hleft
  have hpws := hpw.trans ((List.suffix_cons _ _).trans hstart)
  -- the two belong to one transaction and share its executor
  have hcall : (tasks t).call = some call :=
    (call_of_entered hls (History.mem_own.mpr (hstart.subset List.mem_cons_self))).symm
  have hcallw : (tasks w).call = some c := by
    have hin : phase (History.own pw w) = .inside (.after c (.exec (.ok er))) :=
      ho.bracketed _ _ hpws
    exact (call_of_entered (hls.suffix ((List.suffix_cons _ _).trans hpws))
      (entered_of_inside hin)).symm
  have same : SameTx tasks t w := ⟨call, hcall, c, hcallw, reads, writes, task⟩
  have tx : SameTx tasks w w := ⟨c, hcallw, c, hcallw, writes, writes, rfl⟩
  have hid : call.rb.id = c.rb.id := (sessions t w call hcall c hcallw reads).mpr ⟨writes, task⟩
  have hclear : ⟨w, .l1Clear c.rb.id, ()⟩ ∈ p := by
    have hcleared := (hls _ _ hpws : rule I X C (tasks w) (History.own pw w) _).1 rows
    exact ((List.suffix_cons _ _).trans hpw).subset (History.mem_own.mp hcleared)
  -- a moment of the lookup that knows where the value comes from
  have origin {q : History V T} (hq : q <:+ s) {t' : T} {call' : Call V} {v₀ : V}
      (hr : ReadAfter q t' call' v₀ w) (hy : Yields C v₀ v) :
      ∃ t' call' v₀ q, ⟨t', .databaseQuery call', .ok v₀⟩ :: q <:+ s ∧
        (∃ r, ⟨w, .databaseExec c, r⟩ ∈ q) ∧ Yields C v₀ v := by
    obtain ⟨m, hm, hexec⟩ := hr.moment (hls.suffix hq) hcallw
    exact ⟨t', call', v₀, m, hm.trans hq, hexec, hy⟩
  have hans : Answered I X C call v (History.own s t) := hl _ _ answered
  cases hans with
  | buffered entered transaction mode built got =>
    obtain ⟨q, hq⟩ := History.exists_suffix_of_mem_own got
    obtain ⟨k, hd, t', call', hf⟩ := hi.probed _ _ (hq.trans hsuf) t _ _ v rfl
    have hclq := mem_of_first hls hstart rfl hq hclear
    exact origin ((List.suffix_cons _ _).trans hq)
      (ho.probed _ _ hq t _ _ _ rfl w _ same hclq t' call' k v hf hd) (.inl rfl)
  | l1 looks got =>
    obtain ⟨q, hq⟩ := History.exists_suffix_of_mem_own got
    have hqs : q <:+ s := (List.suffix_cons _ _).trans hq
    have hclq := mem_of_first hls hstart rfl hq hclear
    obtain ⟨t', call', k, v₀, hf, hy, after⟩ := hi.looked _ _ (hq.trans hsuf) t _ v rfl (ho.suffix hqs)
    rw [hid] at after
    exact origin hqs (after w tx hclq) hy
  | l2 looks found =>
    obtain ⟨bytes, q, hq, t', call', k, v₀, hf, hd, -, hy⟩ := hi.served codec hsuf found
    have hclq := mem_of_first hls hstart rfl hq hclear
    exact origin ((List.suffix_cons _ _).trans hq)
      (ho.got _ _ hq t _ _ rfl w _ same hclq t' call' k v₀ hf hd) hy

end

/-- The statements of transaction 9 after it has begun, a DML of a connection before it. -/
def transaction (first : Task UInt64) : Fin 5 → Task UInt64
  | 0 => first
  | 1 => Sample.event .begin 9
  | 2 => Sample.dml (Sample.txCall 9 "UPDATE t SET x = 1")
  | 3 | 4 => Sample.select (Sample.txCall 9 "SELECT 1")

/-- What an operation hands to `after`. -/
def Op.result : Op UInt64 → Option (Call UInt64 × UInt64)
  | .enter (.after call (.query (.ok v))) => some (call, v)
  | _ => none

def Op.clears : Op UInt64 → Bool
  | .l1Clear _ => true
  | _ => false

/-- Where something is found, only the writer has cleared a slot, and all results had been read after its
DML. -/
def afterWrite (tasks : Fin 5 → Task UInt64) (writer : Fin 5) : Sample.Rules (Fin 5) := fun t op ch w h =>
  Sequential tasks t op ch w h ∧ (finds op ch w ≠ none → ∀ e ∈ h,
    (e.op.clears = true → e.task = writer) ∧ ∀ r ∈ e.op.result, h.Precedes
      ⟨writer, .databaseExec (Sample.txCall 9 "UPDATE t SET x = 1"), .ok ⟨1⟩⟩
      ⟨e.task, .databaseQuery r.1, .ok r.2⟩)

instance (tasks : Fin 5 → Task UInt64) (writer t : Fin 5) (op : Op UInt64)
    (ch : Choice Sample.Backend UInt64) (w : World Sample.Backend UInt64) (h : History UInt64 (Fin 5)) :
    Decidable (afterWrite tasks writer t op ch w h) := by
  unfold afterWrite
  infer_instance

private theorem readsOwnWrites_of_afterWrite {tasks : Fin 5 → Task UInt64} {writer t : Fin 5}
    {op : Op UInt64}
    {ch : Choice Sample.Backend UInt64} {w : World Sample.Backend UInt64} {h : History UInt64 (Fin 5)}
    (after : afterWrite tasks writer t op ch w h) :
    ReadsOwnWrites Sample.deferring Sample.externals Sample.codec tasks t op ch w h := by
  refine ⟨after.1, fun d hd u x _ cleared t' call key v filed _ => ?_⟩
  have found : finds op ch w ≠ none := by
    rw [hd]
    exact Option.some_ne_none d
  obtain rfl : u = writer := (after.2 found _ cleared).1 rfl
  obtain ⟨rest, l, hl⟩ := filed.read
  have entered : ⟨.enter (.after call (.query (.ok v))), ()⟩ ∈ h.own t' := by
    rw [← hl]
    simp
  obtain ⟨q, read, wrote⟩ := (after.2 found _ (History.mem_own.mp entered)).2 (call, v) rfl
  exact ⟨q, read, _, _, wrote⟩

/-- A DML of a transaction and two queries, the second one answered from the transaction's buffer. -/
theorem own_write_read_back :
    ∃ (d : Sample.State (Fin 5)) (s : History UInt64 (Fin 5)),
      ⟨4, .leave (.before (Sample.txCall 9 "SELECT 1") (.query ())) (.ok (.return 8)), ()⟩ :: s <:+
        d.history ∧
      (s.any fun | ⟨4, .pendingGet 9 _, found⟩ => found == some 8 | _ => false) = true ∧
      ∃ t' call' v₀ q, ⟨t', .databaseQuery call', .ok v₀⟩ :: q <:+ s ∧
        (∃ r, ⟨2, .databaseExec (Sample.txCall 9 "UPDATE t SET x = 1"), r⟩ ∈ q) ∧
        Yields Sample.codec v₀ 8 := by
  let tasks := transaction (Sample.dml (Sample.call 1 "UPDATE t SET x = 1"))
  obtain ⟨d, run, seen⟩ := play_observed (M := Sample.steps (Fin 5) Sample.deferring)
    (A := afterWrite tasks 2) (c := Sample.start Sample.deferring tasks)
    (List.replicate 3 (1, Sample.reading 7) ++ List.replicate 7 (2, Sample.reading 7) ++
      List.replicate 19 (3, Sample.reading 8) ++ List.replicate 3 (4, Sample.reading 9))
    (fun d => decide (d.history.head? = some ⟨4,
        .leave (.before (Sample.txCall 9 "SELECT 1") (.query ())) (.ok (.return 8)), ()⟩) &&
      (d.history.tail.any fun | ⟨4, .pendingGet 9 _, found⟩ => found == some 8 | _ => false) &&
      decide (History.Precedes d.history.tail ⟨2, .leave (.after (Sample.txCall 9
          "UPDATE t SET x = 1") (.exec (.ok ⟨1⟩))) (.ok .next), ()⟩
        ⟨4, .enter (.before (Sample.txCall 9 "SELECT 1") (.query ())), ()⟩))
    (by decide +kernel)
  simp only [Bool.and_eq_true, decide_eq_true_eq] at seen
  obtain ⟨⟨head, pending⟩, completed⟩ := seen
  have suffix := History.suffix_of_head? head
  have listening : Listening tasks := by
    intro t
    match t with
    | 0 | 2 | 3 | 4 => exact .inl ⟨_, rfl⟩
    | 1 => exact .inr ⟨_, rfl⟩
  have calls (t : Fin 5) (c : Call UInt64) (hc : c ∈ (tasks t).call) :
      c.rb.isInTransaction = false ∧ c.rb.id = 1 ∨
        c.rb.isInTransaction = true ∧ c.rb.id = 9 ∧ c.taskId = 9 := by
    match t with
    | 0 =>
      cases hc
      exact .inl ⟨Sample.call_outside _ _, rfl⟩
    | 1 => cases hc
    | 2 | 3 | 4 =>
      cases hc
      exact .inr ⟨Sample.txCall_inside _ _, rfl, rfl⟩
  have sessions : Sessions tasks := by
    intro t w c hc c' hc' tx
    rcases calls t c hc with ⟨outside, -⟩ | ⟨-, id, task⟩
    · rw [outside] at tx
      cases tx
    · rcases calls w c' hc' with ⟨outside, id'⟩ | ⟨inside, id', task'⟩
      · simp [id, id', outside]
      · simp [id, id', task, task', inside]
  exact ⟨d, _, suffix, pending, before_reads_own_writes (H := (LocalBackend.healthy _).honest) listening
    sessions Sample.externals_roundTrips rfl (run.weaken fun _ _ _ _ _ => readsOwnWrites_of_afterWrite)
    suffix completed (by decide) (Sample.txCall_inside _ _) (Sample.txCall_inside _ _) rfl⟩

/-- What a transaction has buffered before its DML answers a query after it. -/
theorem buffer_answers_after_dml :
    ∃ (d : Sample.State (Fin 5)) (s : History UInt64 (Fin 5)),
      Reaches (Sample.steps (Fin 5) Sample.deferring)
        (Sequential (transaction (Sample.select (Sample.txCall 9 "SELECT 1"))))
        (Sample.start Sample.deferring
          (transaction (Sample.select (Sample.txCall 9 "SELECT 1")))) d ∧
      ⟨4, .leave (.before (Sample.txCall 9 "SELECT 1") (.query ())) (.ok (.return 7)), ()⟩ :: s <:+
        d.history ∧
      s.Precedes ⟨2, .leave (.after (Sample.txCall 9 "UPDATE t SET x = 1") (.exec (.ok ⟨1⟩)))
        (.ok .next), ()⟩ ⟨4, .enter (.before (Sample.txCall 9 "SELECT 1") (.query ())), ()⟩ ∧
      ¬ ∃ t' call' v₀ q, ⟨t', .databaseQuery call', .ok v₀⟩ :: q <:+ s ∧
        ∃ r, ⟨2, .databaseExec (Sample.txCall 9 "UPDATE t SET x = 1"), r⟩ ∈ q := by
  let unwritten (e : Event (Fin 5) (Op UInt64) Op.Res) (s : History UInt64 (Fin 5)) : Bool :=
    match e.op with
    | .databaseQuery _ => s.all fun x => match x.op with
      | .databaseExec _ => false
      | _ => true
    | _ => true
  obtain ⟨d, run, seen⟩ := play_observed (M := Sample.steps (Fin 5) Sample.deferring)
    (A := Sequential (transaction (Sample.select (Sample.txCall 9 "SELECT 1"))))
    (c := Sample.start Sample.deferring
      (transaction (Sample.select (Sample.txCall 9 "SELECT 1"))))
    (List.replicate 3 (1, Sample.reading 7) ++ List.replicate 19 (0, Sample.reading 7) ++
      List.replicate 7 (2, Sample.reading 7) ++ List.replicate 3 (4, Sample.reading 8))
    (fun d => decide (d.history.head? = some ⟨4,
        .leave (.before (Sample.txCall 9 "SELECT 1") (.query ())) (.ok (.return 7)), ()⟩) &&
      decide (History.Precedes d.history.tail ⟨2, .leave (.after (Sample.txCall 9
          "UPDATE t SET x = 1") (.exec (.ok ⟨1⟩))) (.ok .next), ()⟩
        ⟨4, .enter (.before (Sample.txCall 9 "SELECT 1") (.query ())), ()⟩) &&
      decide (History.Always (fun e s => unwritten e s = true) d.history))
    (by decide +kernel)
  simp only [Bool.and_eq_true, decide_eq_true_eq] at seen
  obtain ⟨⟨head, completed⟩, dry⟩ := seen
  obtain ⟨s, hs⟩ := List.head?_eq_some_iff.mp head
  rw [hs, List.tail_cons] at completed
  refine ⟨d, s, run, by rw [hs], completed, ?_⟩
  rintro ⟨t', call', v₀, q, hq, r, hexec⟩
  have hsuf : s <:+ d.history := by
    rw [hs]
    exact List.suffix_cons _ _
  have hall := List.all_eq_true.mp (dry _ _ (hq.trans hsuf)) _ hexec
  cases hall

end RbatisCache.RbatisInterceptor
