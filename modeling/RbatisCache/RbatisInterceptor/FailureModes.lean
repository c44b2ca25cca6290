import RbatisCache.RbatisInterceptor.Bounds
import RbatisCache.RbatisInterceptor.Sample

/-! What a hook call makes of a backend that fails. In fail-open mode no fault reaches the caller; in
fail-closed mode the faults of two generation reads do not reach it either. -/
namespace RbatisCache.RbatisInterceptor
open Interleaving
open Interleaving.Prog (perform bind_eq perform_bind pure_eq Only Ensures)
open RbatisCacheInterceptor

section
variable {V : Type}

/-- What a task has done in its current hook call. -/
def current (done : Done V) : Done V := done.takeWhile fun e => !e.1.isEnter

/-- A backend call that has returned an error. -/
def isFault : Sigma (Op.Res (V := V)) → Bool
  | ⟨.backend op, r⟩ => decide (op.Failed r)
  | _ => false

/-- The current hook call has met no fault. -/
def Clean (done : Done V) : Prop := ∀ e ∈ current done, isFault e = false

/-- The current hook call has asked for the election of a loader. -/
def Elected (done : Done V) : Prop := ∃ d role, ⟨.tryBeginLoad d, role⟩ ∈ current done

/-- The faults that a hook call answers with `Ok` in either mode: of the generation that `after`
reads for a query, and of the one that `before` reads once it has waited for a loader. -/
def Swallowed (hook : Hook V) (done : Done V) : BackendOp → Prop
  | .generation _ =>
    match hook with
    | .before _ _ => Elected done
    | .after _ (.query _) => True
    | .after _ (.exec _) | .onEvent _ => False
  | _ => False

/-- The faults of a hook call reach its caller exactly if they are not swallowed. -/
def Surfaced {α : Type} (hook : Hook V) (reply : Except String α) (done : Done V) : Prop :=
  ∀ op r, ⟨.backend op, r⟩ ∈ current done → op.Failed r →
    ((∃ e, reply = .error e) ↔ ¬ Swallowed hook done op)

/-- All faults of the current hook call are of operations of one kind. -/
def FaultsIn (P : BackendOp → Prop) (done : Done V) : Prop :=
  ∀ op r, ⟨.backend op, r⟩ ∈ current done → op.Failed r → P op

variable {done : Done V} {hook : Hook V} {α : Type} {reply : Except String α}

private theorem exists_fault (h : done.any isFault = true) :
    ∃ op r, ⟨.backend op, r⟩ ∈ done ∧ op.Failed r := by
  obtain ⟨⟨op, r⟩, hm, hf⟩ := List.any_eq_true.mp h
  cases op with
  | backend op => exact ⟨op, r, hm, of_decide_eq_true hf⟩
  | _ => cases hf

private theorem current_cons {op : Op V} (hop : op.isEnter = false) (r : op.Res) :
    current (⟨op, r⟩ :: done) = ⟨op, r⟩ :: current done := by
  simp [current, hop]

theorem Clean.cons (h : Clean done) {op : Op V} {r : op.Res} (hop : op.isEnter = false)
    (hf : isFault ⟨op, r⟩ = false) : Clean (⟨op, r⟩ :: done) := by
  rw [Clean, current_cons hop]
  rintro e (_ | ⟨_, he⟩)
  · exact hf
  · exact h e he

theorem Elected.cons (h : Elected done) {op : Op V} (hop : op.Inner) (r : op.Res) :
    Elected (⟨op, r⟩ :: done) := by
  obtain ⟨d, role, hm⟩ := h
  have hne : op.isEnter = false := by
    cases op with
    | enter => cases hop
    | _ => rfl
  refine ⟨d, role, ?_⟩
  rw [current_cons hne]
  exact List.mem_cons_of_mem _ hm

theorem Clean.faultsIn (h : Clean done) (P : BackendOp → Prop) : FaultsIn P done := by
  intro op r hm hf
  have hfault := h _ hm
  simp [isFault, hf] at hfault

/-- The one fault of a hook call. -/
theorem Clean.fault (h : Clean done) (op : BackendOp) (r : op.Res) :
    FaultsIn (· = op) (⟨.backend op, r⟩ :: done) := by
  intro o q hm hf
  rw [current_cons rfl] at hm
  cases hm with
  | head => rfl
  | tail _ hm => exact (h.faultsIn (· = op)) o q hm hf

theorem FaultsIn.cons {P : BackendOp → Prop} (h : FaultsIn P done) {op : Op V} {r : op.Res}
    (hop : op.isEnter = false) (hb : ∀ o, op ≠ .backend o) : FaultsIn P (⟨op, r⟩ :: done) := by
  intro o q hm hf
  rw [current_cons hop] at hm
  cases hm with
  | head => exact absurd rfl (hb _)
  | tail _ hm => exact h o q hm hf

theorem Clean.surfaced (h : Clean done) : Surfaced hook reply done :=
  fun op r hm hf => ((h.faultsIn fun _ => False) op r hm hf).elim

/-- An error that is reported for faults none of which is swallowed. -/
theorem FaultsIn.surfaced {P : BackendOp → Prop} (h : FaultsIn P done)
    (hp : ∀ op, P op → ¬ Swallowed hook done op) (e : String) :
    Surfaced hook (.error e : Except String α) done :=
  fun op r hm hf => iff_of_true ⟨e, rfl⟩ (hp op (h op r hm hf))

theorem FaultsIn.swallowed {P : BackendOp → Prop} (h : FaultsIn P done)
    (hp : ∀ op, P op → Swallowed hook done op) (a : α) : Surfaced hook (.ok a) done :=
  fun op r hm hf => iff_of_false nofun (not_not_intro (hp op (h op r hm hf)))

variable (I : RbatisCacheInterceptor)

/-- In fail-closed mode a hook call goes on only as long as it has met no fault. -/
def Calm (done : Done V) : Prop := I.policy.failureMode = .failClosed → Clean done

/-- How a hook call answers in the two modes. -/
structure Replied (hook : Hook V) (reply : Except String α) (done : Done V) : Prop where
  failOpen : I.policy.failureMode = .failOpen → ∃ a, reply = .ok a
  failClosed : I.policy.failureMode = .failClosed → Surfaced hook reply done

/-- In fail-closed mode the hook call has met a fault that is not of a generation read. -/
structure Refused (done : Done V) : Prop where
  mode : I.policy.failureMode = .failClosed
  faults : FaultsIn (fun op => op.isGeneration = false) done

variable {I} {X : Externals Bytes} {C : ValueCodec V} {call : Call V} {key : CacheKey}

theorem Calm.cons (h : Calm I done) {op : Op V} {r : op.Res} (hop : op.isEnter = false)
    (hf : isFault ⟨op, r⟩ = false) : Calm I (⟨op, r⟩ :: done) :=
  fun mode => (h mode).cons hop hf

theorem Calm.of_failOpen (mode : I.policy.failureMode = .failOpen) : Calm I done := by
  intro h
  rw [mode] at h
  cases h

theorem Calm.replied (h : Calm I done) {a : α} : Replied I hook (.ok a) done :=
  ⟨fun _ => ⟨a, rfl⟩, fun mode => (h mode).surfaced⟩

/-- An answer is judged by whether it is an error. -/
theorem Replied.congr {β : Type} {reply' : Except String β} (h : Replied I hook reply done)
    (same : (∃ e, reply' = .error e) ↔ ∃ e, reply = .error e) : Replied I hook reply' done := by
  refine ⟨fun mode => ?_, fun mode op r hm hf => same.trans (h.failClosed mode op r hm hf)⟩
  obtain ⟨a, rfl⟩ := h.failOpen mode
  cases reply' with
  | ok b => exact ⟨b, rfl⟩
  | error e =>
    obtain ⟨_, he⟩ := same.mp ⟨e, rfl⟩
    cases he

theorem Replied.error {β : Type} {e : String} (h : Replied I hook (.error e : Except String α) done) :
    Replied I hook (.error e : Except String β) done :=
  h.congr (iff_of_true ⟨e, rfl⟩ ⟨e, rfl⟩)

theorem Refused.replied (h : Refused I done) (e : String) :
    Replied I hook (.error e : Except String α) done := by
  refine ⟨fun mode => ?_, fun _ => h.faults.surfaced (fun op hop hs => ?_) e⟩
  · rw [h.mode] at mode
    cases mode
  · cases op with
    | generation => cases hop
    | _ => exact hs

theorem Clean.refused (h : Clean done) (mode : I.policy.failureMode = .failClosed)
    {op : BackendOp} (hop : op.isGeneration = false) (r : op.Res) (m : Metric) :
    Refused I (⟨.record m, ()⟩ :: ⟨.backend op, r⟩ :: done) := by
  refine ⟨mode, FaultsIn.cons (fun o q hm hf => ?_) rfl nofun⟩
  obtain rfl := h.fault op r o q hm hf
  exact hop

private theorem calm_local {p : Prog (Op V) Op.Res α} (h : p.Only Op.Local) (hc : Calm I done) :
    p.Ensures (fun _ after => Calm I after) done := by
  refine h.ensures (fun done op r hop hk => hk.cons ?_ ?_) hc
  · cases op with
    | enter => cases hop
    | _ => rfl
  · cases op with
    | backend => cases hop
    | _ => rfl

private theorem elected_inner {p : Prog (Op V) Op.Res α} (h : p.Only Op.Inner) (he : Elected done) :
    p.Ensures (fun _ after => Elected after) done :=
  h.ensures (fun _ _ r hop hk => hk.cons hop r) he

/-! ### The backend calls of the hooks -/

/-- A fault of the generation read is the last thing that happens in fail-closed mode. -/
theorem ensures_resolveKey {input : CacheKeyInput} (hc : Calm I done) :
    (resolveKey I X input).Ensures (fun a after =>
      (∀ key, a = .ok key → Calm I after) ∧
      ∀ e, a = .error e → Calm I after ∨ I.policy.failureMode = .failClosed ∧
        ∃ n r, after = ⟨.backend (.generation n), r⟩ :: done) done := by
  unfold resolveKey
  simp only [bind_eq, perform_bind, pure_eq]
  refine ⟨trivial, fun result => ?_⟩
  match result with
  | .ok g =>
    have hread : Calm I (⟨.backend (.generation input.nameSpace), .ok g⟩ :: done) :=
      hc.cons rfl rfl
    exact ⟨fun _ _ => hread, fun _ _ => .inl hread⟩
  | .error e =>
    dsimp only
    cases mode : I.policy.failureMode with
    | failOpen =>
      exact ⟨trivial, fun _ => ⟨nofun, fun _ _ => .inl (.of_failOpen mode)⟩⟩
    | failClosed => exact ⟨nofun, fun _ _ => .inr ⟨rfl, _, _, rfl⟩⟩

private theorem ensures_lookupValue {executorId : Int} (hc : Calm I done) :
    (lookupValue I X C executorId key).Ensures (fun a after =>
      (∀ found, a = .ok found → Calm I after) ∧ ∀ e, a = .error e → Refused I after) done := by
  have calm {a : Option V} {after : Done V} (h : Calm I after) :
      (∀ found, (.ok a : Except String _) = .ok found → Calm I after) ∧
        ∀ e, (.ok a : Except String _) = .error e → Refused I after := ⟨fun _ _ => h, nofun⟩
  unfold lookupValue
  simp only [bind_eq, pure_eq]
  refine (calm_local local_l1Get hc).andThen fun a looked hl _ => ?_
  match a with
  | some v => exact ⟨trivial, fun _ => calm (hl.cons rfl rfl)⟩
  | none =>
    simp only [perform_bind]
    refine ⟨trivial, fun result => ?_⟩
    match result with
    | .ok none => exact ⟨trivial, fun _ => calm ((hl.cons rfl rfl).cons rfl rfl)⟩
    | .error e =>
      refine ⟨trivial, fun _ => ?_⟩
      dsimp only
      cases mode : I.policy.failureMode with
      | failOpen => exact calm (.of_failOpen mode)
      | failClosed => exact ⟨nofun, fun _ _ => (hl mode).refused mode rfl _ _⟩
    | .ok (some bytes) =>
      have hgot : Calm I (⟨.backend (.get key.digest), .ok (some bytes)⟩ :: looked) :=
        hl.cons rfl rfl
      dsimp only
      split
      · exact ⟨trivial, fun _ => calm (hgot.cons rfl rfl)⟩
      · refine ⟨trivial, fun now => ?_⟩
        have hnow : Calm I (⟨.nowMs, now⟩ :: _) := hgot.cons rfl rfl
        dsimp only
        split
        · split
          · refine ⟨trivial, fun _ => ?_⟩
            exact (calm_local local_l1Put (hnow.cons rfl rfl)).andThen fun _ _ hf _ => calm hf
          · exact calm hnow
        · exact ⟨trivial, fun _ => calm (hnow.cons rfl rfl)⟩

/-- Whatever a call has read can be encoded, as a value and in an envelope. -/
structure Encodable (I : RbatisCacheInterceptor) (X : Externals Bytes) (C : ValueCodec V)
    (call : Call V) : Prop where
  values : ∀ v, ∃ payload, C.toVecNamed v = .ok payload
  envelopes : ∀ g key payload ttl now, CacheKey.build X (buildKeyInput I C call) g = .ok key →
    ∃ bytes, (CacheEnvelope.new key payload ttl now).encode X = .ok bytes

theorem Calm.failed (h : Calm I done) (mode : I.policy.failureMode ≠ .failOpen) (e : String) :
    Replied I hook (.error e : Except String α) done :=
  ⟨fun h => absurd h mode, fun mode => (h mode).surfaced⟩

private theorem ensures_storeValue {v : V} {ttl : Duration} {g : UInt64} (hc : Calm I done)
    (encodes : I.policy.failureMode = .failOpen → Encodable I X C call)
    (built : CacheKey.build X (buildKeyInput I C call) g = .ok key) :
    (storeValue I X C key v ttl).Ensures (Replied I hook) done := by
  unfold storeValue
  simp only [bind_eq, perform_bind, pure_eq]
  cases hp : C.toVecNamed v with
  | error e =>
    refine hc.failed (fun mode => ?_) _
    obtain ⟨_, h⟩ := (encodes mode).values v
    rw [hp] at h
    cases h
  | ok payload =>
    dsimp only
    split
    · exact hc.replied
    · refine ⟨trivial, fun now => ?_⟩
      have hnow : Calm I (⟨.nowMs, now⟩ :: done) := hc.cons rfl rfl
      dsimp only
      cases he : (CacheEnvelope.new key payload ttl now).encode X with
      | error e =>
        refine hnow.failed (fun mode => ?_) _
        obtain ⟨_, h⟩ := (encodes mode).envelopes g key payload ttl now built
        rw [he] at h
        cases h
      | ok bytes =>
        refine ⟨trivial, fun result => ?_⟩
        match result with
        | .ok _ => exact (hnow.cons rfl rfl).replied
        | .error e =>
          refine ⟨trivial, fun _ => ?_⟩
          dsimp only
          cases mode : I.policy.failureMode with
          | failOpen => exact (Calm.of_failOpen mode).replied
          | failClosed => exact ((hnow mode).refused mode rfl _ _).replied _

private theorem ensures_invalidate (hc : Calm I done) :
    (invalidate I).Ensures (Replied I hook) done := by
  unfold invalidate
  simp only [bind_eq, perform_bind, pure_eq]
  refine ⟨trivial, fun result => ?_⟩
  match result with
  | .ok _ => exact ⟨trivial, fun _ => ((hc.cons rfl rfl).cons rfl rfl).replied⟩
  | .error e =>
    refine ⟨trivial, fun _ => ?_⟩
    dsimp only
    cases mode : I.policy.failureMode with
    | failOpen => exact (Calm.of_failOpen mode).replied
    | failClosed => exact ((hc mode).refused mode rfl _ _).replied _

/-! ### The hooks -/

/-- Once a loader has been waited for, a fault of the generation read is swallowed. -/
theorem ensures_singleflightLoop {d : String} {remaining : Nat} (hc : Calm I done) :
    (singleflightLoop I X C call d remaining).Ensures (Replied I (.before call (.query ())))
      done := by
  induction remaining generalizing done with
  | zero => exact hc.replied
  | succ remaining ih =>
    simp only [singleflightLoop, bind_eq, perform_bind, pure_eq]
    refine ⟨trivial, fun role => ?_⟩
    have hasked : Calm I (⟨.tryBeginLoad d, role⟩ :: done) := hc.cons rfl rfl
    have helected : Elected (⟨.tryBeginLoad d, role⟩ :: done) :=
      ⟨d, role, by rw [current_cons rfl]; exact List.mem_cons_self⟩
    match role with
    | .leader => exact hasked.replied
    | .follower load =>
      dsimp only
      split
      · exact hasked.replied
      · have quiet : (wait load : Code V Unit).Only Op.Local := local_wait
        have hwait := (calm_local quiet hasked).and
          (elected_inner (quiet.mono Op.Local.inner) helected)
        refine hwait.andThen fun _ waited ⟨hw, hel⟩ _ => ?_
        refine (ensures_resolveKey hw).andThen fun a resolved ⟨hok, herr⟩ _ => ?_
        match a with
        | .error e =>
          rcases herr e rfl with hr | ⟨mode, n, r, rfl⟩
          · exact hr.replied
          · refine ⟨fun _ => ⟨_, rfl⟩, fun _ => ((hw mode).fault (.generation n) r).swallowed ?_ _⟩
            rintro _ rfl
            have read : (Op.backend (.generation n) : Op V).Inner := trivial
            exact hel.cons read r
        | .ok found =>
          refine (ensures_lookupValue (hok found rfl)).andThen fun a looked ⟨hok, herr⟩ _ => ?_
          match a with
          | .error e => exact (herr e rfl).replied e
          | .ok (some v) => exact (hok _ rfl).replied
          | .ok none => exact ih (hok _ rfl)

private theorem not_elected_local {p : Prog (Op V) Op.Res α} (h : p.Only Op.Local)
    (hn : ¬ Elected done) :
    p.Ensures (fun _ after => ¬ Elected after) done := by
  refine h.ensures (fun done op r hop hk he => hk ?_) hn
  obtain ⟨d, role, hm⟩ := he
  have hne : op.isEnter = false := by
    cases op with
    | enter => cases hop
    | _ => rfl
  rw [current_cons hne] at hm
  cases hm with
  | head => cases hop
  | tail _ hm => exact ⟨d, role, hm⟩

private theorem ensures_beforeLookup (hc : Calm I done) (hn : ¬ Elected done) :
    (beforeLookup I X C call).Ensures (Replied I (.before call (.query ()))) done := by
  unfold beforeLookup
  simp only [bind_eq, pure_eq]
  refine (ensures_resolveKey hc).andThen fun a resolved ⟨hok, herr⟩ _ => ?_
  match a with
  | .error e =>
    dsimp only
    cases mode : I.policy.failureMode with
    | failOpen => exact (Calm.of_failOpen mode).replied
    | failClosed =>
      refine ⟨fun h => by simp [mode] at h, fun _ => ?_⟩
      rcases herr e rfl with hr | ⟨-, n, r, rfl⟩
      · exact (hr mode).surfaced
      · refine ((hc mode).fault (.generation n) r).surfaced ?_ _
        rintro _ rfl ⟨d, role, hm⟩
        rw [current_cons rfl] at hm
        cases hm with
        | tail _ hm => exact hn ⟨d, role, hm⟩
  | .ok key =>
    refine (ensures_lookupValue (hok key rfl)).andThen fun a looked ⟨hok, herr⟩ _ => ?_
    match a with
    | .error e => exact (herr e rfl).replied e
    | .ok (some v) => exact (hok _ rfl).replied
    | .ok none =>
      dsimp only
      split
      · exact ensures_singleflightLoop (hok _ rfl)
      · exact (hok _ rfl).replied

private theorem ensures_before (hc : Calm I done) (hn : ¬ Elected done)
    {result : ResultType Unit Unit} :
    (before I X C call result).Ensures (Replied I (.before call result)) done := by
  cases result with
  | exec => exact hc.replied
  | query =>
    unfold before
    simp only [bind_eq, pure_eq]
    split
    · exact hc.replied
    · have quiet : (bufferedValue I X C call).Only Op.Local := local_bufferedValue
      have hbuffered := (calm_local quiet hc).and (not_elected_local quiet hn)
      refine hbuffered.andThen fun buffered asked ⟨hask, hnone⟩ _ => ?_
      match buffered with
      | some _ => exact hask.replied
      | none =>
        dsimp only
        split
        · exact hask.replied
        · exact ensures_beforeLookup hask hnone

private theorem ensures_afterStore {v : V} {g : UInt64} (hc : Calm I done)
    (encodes : I.policy.failureMode = .failOpen → Encodable I X C call)
    (built : CacheKey.build X (buildKeyInput I C call) g = .ok key) :
    (afterStore I X C call key v).Ensures (Replied I hook) done := by
  unfold afterStore
  simp only [bind_eq, perform_bind, pure_eq]
  split
  · exact hc.replied
  · split
    · refine ⟨trivial, fun buffered => ?_⟩
      have hput : Calm I (⟨.bufferPut call.taskId key v, buffered⟩ :: done) := hc.cons rfl rfl
      match buffered with
      | true => exact hput.replied
      | false => exact ensures_storeValue hput encodes built
    · exact ensures_storeValue hc encodes built

/-- A fault of the generation read of the `after` of a query is always swallowed. -/
theorem ensures_afterQuery {result : Except String V} (hc : Calm I done)
    (encodes : I.policy.failureMode = .failOpen → Encodable I X C call) :
    (afterQuery I X C call result).Ensures (Replied I (.after call (.query result))) done := by
  unfold afterQuery
  simp only [bind_eq, pure_eq]
  split
  · exact hc.replied
  · refine ((ensures_resolveKey hc).and ensures_key).andThen fun a resolved ⟨⟨hok, herr⟩, hb⟩ _ => ?_
    match a with
    | .error e =>
      rcases herr e rfl with hr | ⟨mode, n, r, rfl⟩
      · exact hr.replied
      · refine ⟨fun _ => ⟨_, rfl⟩, fun _ => ((hc mode).fault (.generation n) r).swallowed ?_ _⟩
        rintro _ rfl
        trivial
    | .ok key =>
      refine (calm_local local_completeLoad (hok key rfl)).andThen fun _ completed hcl _ => ?_
      match result with
      | .error _ => exact hcl.replied
      | .ok value =>
        refine (calm_local local_l1Put hcl).andThen fun _ filled hfl _ => ?_
        exact ensures_afterStore hfl encodes (hb key rfl).2

private theorem ensures_afterExec {result : Except String ExecResult} (hc : Calm I done) :
    (afterExec I call result).Ensures (Replied I hook) done := by
  cases result with
  | error => exact hc.replied
  | ok er =>
    simp only [afterExec, bind_eq, perform_bind, pure_eq]
    split
    · refine ⟨trivial, fun _ => ?_⟩
      have hcleared : Calm I (⟨.l1Clear call.rb.id, ()⟩ :: done) := hc.cons rfl rfl
      split
      · split
        · exact ⟨trivial, fun _ => (hcleared.cons rfl rfl).replied⟩
        · exact hcleared.replied
      · exact ensures_invalidate hcleared
    · exact hc.replied

/-- The answer of a hook call, from the moment it is entered. -/
theorem ensures_runHook (hc : hook.call = some call)
    (encodes : I.policy.failureMode = .failOpen → Encodable I X C call) :
    (runHook I X C hook).Ensures (Replied I hook) (⟨.enter hook, ()⟩ :: done) := by
  have hclean : Clean (⟨.enter hook, ()⟩ :: done) := by
    rintro e ⟨⟩
  have hnone : ¬ Elected (⟨.enter hook, ()⟩ :: done) := by
    rintro ⟨d, role, ⟨⟩⟩
  cases hook with
  | before c result =>
    cases hc
    exact ensures_before (fun _ => hclean) hnone
  | after c result =>
    cases hc
    have hafter : (after I X C call result).Ensures (Replied I (.after call result))
        (⟨.enter (.after call result), ()⟩ :: done) := by
      cases result with
      | query result => exact ensures_afterQuery (fun _ => hclean) encodes
      | exec result => exact ensures_afterExec fun _ => hclean
    unfold runHook
    simp only [bind_eq, pure_eq]
    refine hafter.andThen fun reply left hr _ => ?_
    match reply with
    | .ok _ => exact hr.congr (iff_of_false nofun nofun)
    | .error e => exact hr.error
  | onEvent => cases hc

/-! ### The tasks -/

/-- How every hook call leaves that is about a statement. -/
def answers (I : RbatisCacheInterceptor) (task : Task V) (done : Done V) : Op V → Prop
  | .leave hook reply => task.call ≠ none → Replied I hook reply done
  | _ => True

variable {task : Task V}

private theorem answers_of_inner {op : Op V} (hop : op.Inner) : answers I task done op := by
  cases op with
  | leave => cases hop
  | _ => trivial

private theorem answers_invoke (hc : hook.call = task.call)
    (encodes : I.policy.failureMode = .failOpen → ∀ call, task.call = some call →
      Encodable I X C call) :
    (invoke I X C hook).Obeys (answers I task) (fun reply after =>
      ⟨.leave hook reply, ()⟩ ∈ after ∧
        (task.call ≠ none → I.policy.failureMode = .failOpen → ∃ a, reply = .ok a)) done := by
  simp only [invoke, bind_eq, perform_bind, pure_eq]
  refine ⟨trivial, fun _ => ?_⟩
  have hbody : (runHook I X C hook).Ensures
      (fun reply after => task.call ≠ none → Replied I hook reply after)
      (⟨.enter hook, ()⟩ :: done) := by
    cases ht : task.call with
    | none => exact Prog.ensures_true.mono fun _ _ _ hne => absurd rfl hne
    | some call =>
      rw [ht] at hc
      exact (ensures_runHook hc fun mode => encodes mode call ht).mono fun _ _ hr _ => hr
  refine (hbody.obeys only_runHook fun _ _ => answers_of_inner).andThen fun reply left hr _ => ?_
  exact ⟨hr, fun _ => ⟨List.mem_cons_self, fun hne mode => (hr hne).failOpen mode⟩⟩

/-- The database's own answer, or one that `before` has taken from the cache. -/
def Task.Unaltered (done : Done V) : Task V → Reply V → Prop
  | .statement (.query call), .queried result => ⟨.databaseQuery call, result⟩ ∈ done ∨
      ∃ v, result = .ok v ∧ ⟨.leave (.before call (.query ())) (.ok (.return v)), ()⟩ ∈ done
  | .statement (.exec call), .executed result => ⟨.databaseExec call, result⟩ ∈ done
  | .hook _, .hooked reply => ∃ action, reply = .ok action
  | _, _ => False

private theorem answers_query (encodes : I.policy.failureMode = .failOpen → ∀ c, some call = some c →
      Encodable I X C c) :
    (query I X C call).Obeys (answers I (.statement (.query call))) (fun result after =>
      I.policy.failureMode = .failOpen →
        Task.Unaltered after (.statement (.query call)) (.queried result)) done := by
  unfold query
  simp only [bind_eq, perform_bind, pure_eq]
  refine (answers_invoke rfl encodes).andThen fun reply left ⟨hleft, hopen⟩ _ => ?_
  match reply with
  | .error e =>
    intro mode
    obtain ⟨_, h⟩ := hopen nofun mode
    cases h
  | .ok (.return v) => exact fun _ => .inr ⟨v, rfl, hleft⟩
  | .ok .next =>
    refine ⟨trivial, fun result => ?_⟩
    refine (answers_invoke rfl encodes).andThen fun reply finished ⟨_, hopen⟩ hs => ?_
    match reply with
    | .error e =>
      intro mode
      obtain ⟨_, h⟩ := hopen nofun mode
      cases h
    | .ok _ => exact fun _ => .inl (hs.subset List.mem_cons_self)

private theorem answers_exec (encodes : I.policy.failureMode = .failOpen → ∀ c, some call = some c →
      Encodable I X C c) :
    (exec I X C call).Obeys (answers I (.statement (.exec call))) (fun result after =>
      I.policy.failureMode = .failOpen →
        Task.Unaltered after (.statement (.exec call)) (.executed result)) done := by
  unfold exec
  simp only [bind_eq, perform_bind, pure_eq]
  refine (answers_invoke rfl encodes).andThen fun reply left ⟨_, hopen⟩ _ => ?_
  match reply with
  | .error e =>
    intro mode
    obtain ⟨_, h⟩ := hopen nofun mode
    cases h
  | .ok _ =>
    refine ⟨trivial, fun result => ?_⟩
    refine (answers_invoke rfl encodes).andThen fun reply finished ⟨_, hopen⟩ hs => ?_
    match reply with
    | .error e =>
      intro mode
      obtain ⟨_, h⟩ := hopen nofun mode
      cases h
    | .ok _ => exact fun _ => hs.subset List.mem_cons_self

private theorem answers_program (encodes : I.policy.failureMode = .failOpen → ∀ call,
      task.call = some call → Encodable I X C call) :
    (task.program I X C).Obeys (answers I task) (fun reply after =>
      task.call ≠ none → I.policy.failureMode = .failOpen → task.Unaltered after reply) done := by
  cases task with
  | statement s =>
    cases s with
    | query call => exact (answers_query encodes).andThen fun _ _ hr _ _ => hr
    | exec call => exact (answers_exec encodes).andThen fun _ _ hr _ _ => hr
  | hook h =>
    exact (answers_invoke rfl encodes).andThen fun _ _ hr _ hne mode => hr.2 hne mode

end

section
variable {B : CacheBackend} {V T : Type} [DecidableEq T] {I : RbatisCacheInterceptor}
variable {X : Externals Bytes} {C : ValueCodec V} {tasks : T → Task V} {w : World B V}
variable {d : Config T (Op V) Op.Res (World B V) (Reply V)} {t : T}

private theorem reaches_answers (encodes : I.policy.failureMode = .failOpen → ∀ t call,
      (tasks t).call = some call → Encodable I X C call)
    (run : Reaches (machine B V T I) Restriction.none (sharing I X C tasks w) d) :
    Lawful (fun t done op => rule I X C (tasks t) done op ∧ answers I (tasks t) done op) d.history ∧
      d.Obeys (fun t done op => rule I X C (tasks t) done op ∧ answers I (tasks t) done op)
        fun t reply after => True ∧ ((tasks t).call ≠ none → I.policy.failureMode = .failOpen →
          (tasks t).Unaltered after reply) :=
  run.lawful_of_obeys (fun t => obeys_program.and (answers_program fun mode => encodes mode t)) rfl

/-- In fail-open mode no hook call of a statement reports an error, whatever the backend does and
whatever state the interceptor is in; only the `before` of a query answers in place of the database,
and a statement returns what the database has returned or what its `before` has answered. -/
theorem fail_open_hides_faults (mode : I.policy.failureMode = .failOpen)
    (encodes : ∀ t call, (tasks t).call = some call → Encodable I X C call)
    (run : Reaches (machine B V T I) Restriction.none (sharing I X C tasks w) d)
    (hc : (tasks t).call ≠ none) :
    (∀ hook reply, ⟨t, .leave hook reply, ()⟩ ∈ d.history → ∃ action, reply = .ok action ∧
      ((∃ v, action = .return v) → ∃ call, hook = .before call (.query ()))) ∧
    (∀ reply, d.tasks t = .ret reply → (tasks t).Unaltered (d.history.own t) reply) ∧
    Ends I t d := by
  obtain ⟨lawful, obeys⟩ := reaches_answers (fun _ => encodes) run
  refine ⟨fun hook reply hm => ?_, fun reply hr => (obeys.returned hr).2 hc mode, ends run hc⟩
  obtain ⟨s, hs⟩ := History.exists_suffix_of_mem hm
  obtain ⟨hrule, hanswer⟩ := lawful _ _ hs
  obtain ⟨action, rfl⟩ := (hanswer hc).failOpen mode
  refine ⟨action, rfl, ?_⟩
  rintro ⟨v, rfl⟩
  match hook with
  | .before call (.query _) => exact ⟨call, rfl⟩
  | .before _ (.exec _) => cases hrule
  | .after _ (.query _) | .after _ (.exec (.error _)) => cases hrule
  | .after _ (.exec (.ok _)) => exact absurd rfl (hrule.2 v)
  | .onEvent _ => cases hrule

/-- A query that the backend lets down twice, at its lookup and when its result is stored. -/
theorem query_survives_outage :
    ∃ d : Config Unit (Op UInt64) Op.Res (World Sample.adversary UInt64) (Reply UInt64),
      (d.history.own ()).countP isFault = 2 ∧ d.tasks () = .ret (.queried (.ok 7)) ∧
      (∀ hook reply, ⟨(), .leave hook reply, ()⟩ ∈ d.history → ∃ action, reply = .ok action ∧
        ((∃ v, action = .return v) → ∃ call, hook = .before call (.query ()))) ∧
      Task.Unaltered (d.history.own ()) (Sample.select (Sample.call 1 "SELECT 1"))
        (.queried (.ok 7)) ∧
      Ends Sample.interceptor () d := by
  let tasks : Unit → Task UInt64 := fun _ => Sample.select (Sample.call 1 "SELECT 1")
  let down := Sample.told (Sample.answers (.error (.backend "down")) (.error (.backend "down")))
  obtain ⟨d, run, seen⟩ := play_observed (M := machine Sample.adversary UInt64 Unit Sample.interceptor)
    (A := Restriction.none)
    (c := sharing Sample.interceptor Sample.externals Sample.codec tasks (.new {} ()))
    (List.replicate 20 ((), down))
    (fun d => decide ((d.history.own ()).countP isFault = 2) &&
      decide (d.returned () = some (.queried (.ok 7))))
    (by decide +kernel)
  simp only [Bool.and_eq_true, decide_eq_true_eq] at seen
  have returned := Config.returned_eq_some.mp seen.2
  have encodes : ∀ t call, (tasks t).call = some call →
      Encodable Sample.interceptor Sample.externals Sample.codec call := by
    intro t call hc
    cases hc
    exact ⟨fun v => ⟨_, rfl⟩, fun _ _ payload ttl now built => Sample.encodes rfl built payload ttl now⟩
  obtain ⟨answers, unaltered, ends⟩ := fail_open_hides_faults (t := ()) rfl encodes run
    (Option.some_ne_none (Sample.call 1 "SELECT 1"))
  exact ⟨d, seen.1, returned, answers, unaltered _ returned, ends⟩

/-- In fail-closed mode a hook call of a statement that meets a fault reports an error, except for
the generation read of the `after` of a query and for that of a `before` that has waited for a loader:
these faults it does not report. -/
theorem fail_closed_surfaces_iff (mode : I.policy.failureMode = .failClosed)
    (run : Reaches (machine B V T I) Restriction.none (sharing I X C tasks w) d)
    (hc : (tasks t).call ≠ none) :
    (∀ hook reply s, ⟨t, .leave hook reply, ()⟩ :: s <:+ d.history →
      ∀ op r, ⟨.backend op, r⟩ ∈ current (History.own s t) → op.Failed r →
        ((∃ e, reply = .error e) ↔ ¬ Swallowed hook (History.own s t) op)) ∧ Ends I t d := by
  have hmode : I.policy.failureMode = .failOpen → ∀ t call, (tasks t).call = some call →
      Encodable I X C call := by
    intro h
    rw [mode] at h
    cases h
  refine ⟨fun hook reply s hs => ?_, ends run hc⟩
  exact (((reaches_answers hmode run).1 _ _ hs).2 hc).failClosed mode

end

/-- The lookup of a query fails, and its `before` says so. -/
theorem lookup_fault_surfaces :
    ∃ (d : Config Unit (Op UInt64) Op.Res (World Sample.adversary UInt64) (Reply UInt64))
      (s : History UInt64 Unit) (e : String) (op : BackendOp) (r : op.Res),
      ⟨(), .leave (.before (Sample.call 1 "SELECT 1") (.query ())) (.error e), ()⟩ :: s <:+
        d.history ∧
      ⟨.backend op, r⟩ ∈ current (History.own s ()) ∧ op.Failed r ∧
      ¬ Swallowed (.before (Sample.call 1 "SELECT 1") (.query ())) (History.own s ()) op ∧
      Ends Sample.strict () d := by
  let error := "[rbatis-cache] L2 get fail-closed: cache backend failed: down"
  let down := Sample.told (Sample.answers (.error (.backend "down")) (.ok ()))
  obtain ⟨d, run, seen⟩ := play_observed (M := machine Sample.adversary UInt64 Unit Sample.strict)
    (A := Restriction.none)
    (c := sharing Sample.strict Sample.externals Sample.codec
      (fun _ => Sample.select (Sample.call 1 "SELECT 1")) (.new {} ()))
    (List.replicate 6 ((), down))
    (fun d => decide (d.history.head? =
        some ⟨(), .leave (.before (Sample.call 1 "SELECT 1") (.query ())) (.error error), ()⟩) &&
      (current (History.own d.history.tail ())).any isFault)
    (by decide +kernel)
  simp only [Bool.and_eq_true, decide_eq_true_eq] at seen
  obtain ⟨head, fault⟩ := seen
  have suffix := History.suffix_of_head? head
  obtain ⟨op, r, hm, hf⟩ := exists_fault fault
  obtain ⟨surfaces, ends⟩ :=
    fail_closed_surfaces_iff (t := ()) rfl run (Option.some_ne_none (Sample.call 1 "SELECT 1"))
  exact ⟨d, _, error, op, r, suffix, hm, hf, (surfaces _ _ _ suffix op r hm hf).mp ⟨_, rfl⟩, ends⟩

/-- The generation read of an `after` fails, and the `after` is `Ok` in fail-closed mode. -/
theorem after_swallows_fault :
    ∃ (d : Config Unit (Op UInt64) Op.Res (World Sample.adversary UInt64) (Reply UInt64))
      (s : History UInt64 Unit) (op : BackendOp) (r : op.Res),
      Reaches (machine Sample.adversary UInt64 Unit Sample.strict) Restriction.none
        (sharing Sample.strict Sample.externals Sample.codec
          (fun _ => Sample.select (Sample.call 1 "SELECT 1")) (.new {} ())) d ∧
      ⟨(), .leave (.after (Sample.call 1 "SELECT 1") (.query (.ok 7))) (.ok .next), ()⟩ :: s <:+
        d.history ∧
      ⟨.backend op, r⟩ ∈ current (History.own s ()) ∧ op.Failed r := by
  let healthy := Sample.told (Sample.answers (.ok none) (.ok ()))
  obtain ⟨d, run, seen⟩ := play_observed (M := machine Sample.adversary UInt64 Unit Sample.strict)
    (A := Restriction.none)
    (c := sharing Sample.strict Sample.externals Sample.codec
      (fun _ => Sample.select (Sample.call 1 "SELECT 1")) (.new {} ()))
    (List.replicate 8 ((), healthy) ++ List.replicate 3 ((), Sample.told Sample.outage))
    (fun d => decide (d.history.head? = some
        ⟨(), .leave (.after (Sample.call 1 "SELECT 1") (.query (.ok 7))) (.ok .next), ()⟩) &&
      (current (History.own d.history.tail ())).any isFault)
    (by decide +kernel)
  simp only [Bool.and_eq_true, decide_eq_true_eq] at seen
  obtain ⟨head, fault⟩ := seen
  obtain ⟨op, r, hm, hf⟩ := exists_fault fault
  exact ⟨d, _, op, r, run, History.suffix_of_head? head, hm, hf⟩

end RbatisCache.RbatisInterceptor
