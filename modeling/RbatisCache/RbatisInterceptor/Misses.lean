import RbatisCache.RbatisInterceptor.Elections

/-! What a query has seen before it asks for election and before it goes to the database. It asks
only after all its lookups have missed, and it goes to the database as the leader, or when it has
asked three times, or after a fault of the backend. -/
namespace RbatisCache.RbatisInterceptor
open Interleaving
open Interleaving.Prog (bind_eq perform_bind pure_eq Only)
open RbatisCacheInterceptor

section
variable {V : Type}

def Op.isGet : Op V → Bool
  | .backend (.get _) => true
  | _ => false

/-- How often a task has asked for election. -/
def asks (done : Done V) : Nat := done.countP fun e => e.1.candidate.isSome

/-- Some call of the backend has failed. -/
def Fault (done : Done V) : Prop := ∃ op r, ⟨.backend op, r⟩ ∈ done ∧ op.Failed r

/-- Why a query goes to the database. -/
inductive Admitted (done : Done V) : Prop
  | elected {d : String} (leads : ⟨.tryBeginLoad d, .leader⟩ ∈ done)
  | tired (asked : 3 ≤ asks done)
  | faulty (fault : Fault done)

variable (I : RbatisCacheInterceptor) (X : Externals Bytes) (C : ValueCodec V)

/-- Why a lookup does not return what the backend has answered. -/
inductive Rejected (k : String) (bytes : Bytes) (done : Done V) : Prop
  | undecoded {e : CacheError} (decoded : CacheEnvelope.decode X bytes = .error e)
  | stale {envelope : CacheEnvelope Bytes} {g now : UInt64} {rest : Done V}
      (decoded : CacheEnvelope.decode X bytes = .ok envelope)
      (generation : ⟨.backend (.generation I.nameSpace), .ok g⟩ ∈ done)
      (read : ⟨.nowMs, now⟩ :: ⟨.backend (.get k), .ok (some bytes)⟩ :: rest <:+ done)
      (stale : envelope.isFresh g now = false)
  | unreadable {envelope : CacheEnvelope Bytes} {e : String}
      (decoded : CacheEnvelope.decode X bytes = .ok envelope)
      (value : C.fromSlice envelope.payload = .error e)

/-- All lookups in the backend have missed. -/
def Missed (done : Done V) : Prop :=
  ∀ k bytes, ⟨.backend (.get k), .ok (some bytes)⟩ ∈ done → Rejected I X C k bytes done

/-- The digest belongs to a generation that the task has read. -/
def Aimed (call : Call V) (d : String) (done : Done V) : Prop :=
  ∃ key, ⟨.backend (.generation I.nameSpace), .ok key.generation⟩ ∈ done ∧
    CacheKey.build X (buildKeyInput I C call) key.generation = .ok key ∧ key.digest = d

/-- What a query has seen before it asks for election and before it goes to the database. -/
def misses (call : Call V) (done : Done V) : Op V → Prop
  | .tryBeginLoad d => Aimed I X C call d done ∧ Missed I X C done
  | .databaseQuery _ => Admitted done ∧ ∀ c r, ⟨.databaseQuery c, r⟩ ∉ done
  | _ => True

/-- How a query comes to its reply. -/
inductive Outcome (call : Call V) (reply : Reply V) (done : Done V) : Prop
  | asked {result : Except String V} (performed : ⟨.databaseQuery call, result⟩ ∈ done)
  | cached {v : V} (replied : reply = .queried (.ok v))
      (left : ⟨.leave (.before call (.query ())) (.ok (.return v)), ()⟩ ∈ done)
  | faulty (fault : Fault done)

variable {I X C} {call : Call V} {done later : Done V} {d : String} {key : CacheKey}

theorem Fault.grow (h : Fault done) (hl : done <:+ later) : Fault later := by
  obtain ⟨op, r, hm, failed⟩ := h
  exact ⟨op, r, hl.subset hm, failed⟩

theorem Admitted.grow (h : Admitted done) (hl : done <:+ later) : Admitted later := by
  cases h with
  | elected leads => exact .elected (hl.subset leads)
  | tired asked => exact .tired (asked.trans hl.sublist.countP_le)
  | faulty fault => exact .faulty (fault.grow hl)

theorem Aimed.grow (h : Aimed I X C call d done) (hl : done <:+ later) : Aimed I X C call d later := by
  obtain ⟨key, read, built⟩ := h
  exact ⟨key, hl.subset read, built⟩

theorem Rejected.grow {k : String} {bytes : Bytes} (h : Rejected I X C k bytes done)
    (hl : done <:+ later) : Rejected I X C k bytes later := by
  cases h with
  | undecoded decoded => exact .undecoded decoded
  | stale decoded generation read stale =>
    exact .stale decoded (hl.subset generation) (read.trans hl) stale
  | unreadable decoded value => exact .unreadable decoded value

theorem Missed.cons (h : Missed I X C done) {op : Op V} (hop : op.isGet = false) (r : op.Res) :
    Missed I X C (⟨op, r⟩ :: done) := by
  intro k bytes hm
  rcases List.mem_cons.mp hm with hm | hm
  · cases hm
    cases hop
  · exact (h k bytes hm).grow (List.suffix_cons _ _)

theorem Missed.pass (h : Missed I X C done) {k : String} {r : Except CacheError (Option Bytes)}
    (hr : ∀ bytes, r ≠ .ok (some bytes)) : Missed I X C (⟨.backend (.get k), r⟩ :: done) := by
  intro k' bytes hm
  rcases List.mem_cons.mp hm with hm | hm
  · cases hm
    exact absurd rfl (hr bytes)
  · exact (h k' bytes hm).grow (List.suffix_cons _ _)

theorem Missed.reject (h : Missed I X C done) {k : String} {bytes : Bytes} (since : Done V)
    (quiet : ∀ e ∈ since, e.1.isGet = false)
    (rejected : Rejected I X C k bytes (since ++ ⟨.backend (.get k), .ok (some bytes)⟩ :: done)) :
    Missed I X C (since ++ ⟨.backend (.get k), .ok (some bytes)⟩ :: done) := by
  intro k' b hm
  rcases List.mem_append.mp hm with hm | hm
  · cases quiet _ hm
  · rcases List.mem_cons.mp hm with same | hm
    · cases same
      exact rejected
    · exact (h k' b hm).grow ((List.suffix_cons _ _).trans (List.suffix_append _ _))

/-- An operation before which a query need not have seen anything. -/
def Op.Mute : Op V → Prop
  | .tryBeginLoad _ | .databaseQuery _ => False
  | _ => True

theorem Op.Mute.misses : ∀ (past : Done V) (op : Op V), op.Mute → misses I X C call past op := by
  intro past op h
  cases op with
  | tryBeginLoad | databaseQuery => cases h
  | _ => trivial

theorem Op.Resolves.mute : ∀ op : Op V, op.Resolves → op.Mute := by
  intro op h
  cases op with
  | backend | record => trivial
  | _ => cases h

theorem Op.OnL1.mute : ∀ op : Op V, op.OnL1 → op.Mute := by
  intro op h
  cases op with
  | l1Lookup | l1Remove | instantNow | l1Replace | l1Oldest | l1Insert => trivial
  | _ => cases h

theorem Op.Looks.mute : ∀ op : Op V, op.Looks → op.Mute := by
  intro op h
  cases op with
  | backend | nowMs | record => trivial
  | _ => exact Op.OnL1.mute _ h

theorem Op.Deposits.mute : ∀ op : Op V, op.Deposits → op.Mute := by
  intro op h
  cases op with
  | backend | nowMs | record | bufferPut => trivial
  | _ => cases h

theorem Op.Completes.mute : ∀ op : Op V, op.Completes → op.Mute := by
  intro op h
  cases op with
  | finishLoad | removeLoad => trivial
  | _ => cases h

theorem Op.Waits.mute : ∀ op : Op V, op.Waits → op.Mute ∧ op.isGet = false := by
  intro op h
  cases op with
  | loading | notified | awaitNotified => exact ⟨trivial, rfl⟩
  | _ => cases h

private theorem misses_of_ensures {α : Type} {p : Prog (Op V) Op.Res α} {Q : α → Done V → Prop}
    {P : Op V → Prop} (h : p.Ensures Q done) (only : p.Only P) (mute : ∀ op, P op → op.Mute) :
    p.Obeys (misses I X C call) Q done :=
  h.obeys only fun past op hop => Op.Mute.misses past op (mute op hop)

private theorem misses_of_mute {α : Type} {p : Prog (Op V) Op.Res α} (h : p.Only Op.Mute) :
    p.Obeys (misses I X C call) (fun _ _ => True) done :=
  misses_of_ensures Prog.ensures_true h fun _ mute => mute

/-! ### The lookup -/

private theorem build_of_cacheable (cacheable : isCacheable I X call.sql = true) (g : UInt64) :
    ∃ key, CacheKey.build X (buildKeyInput I C call) g = .ok key := by
  unfold isCacheable at cacheable
  split at cacheable
  · cases cacheable
  · next metadata parsed => exact CacheKey.build_of_parse parsed g

/-- A key that cannot be resolved is a fault of the backend. -/
theorem missed_resolveKey (cacheable : isCacheable I X call.sql = true) (missed : Missed I X C done) :
    (resolveKey I X (buildKeyInput I C call)).Ensures (fun a after => Missed I X C after ∧
      (∀ key, a = .ok key → ⟨.backend (.generation I.nameSpace), .ok key.generation⟩ ∈ after ∧
        CacheKey.build X (buildKeyInput I C call) key.generation = .ok key) ∧
      ∀ e, a = .error e → Fault after) done := by
  unfold resolveKey
  simp only [bind_eq, perform_bind, pure_eq]
  refine ⟨trivial, fun answer => ?_⟩
  have asked : Missed I X C (⟨.backend (.generation (buildKeyInput I C call).nameSpace), answer⟩ ::
    done) := missed.cons rfl answer
  cases answer with
  | ok g =>
    obtain ⟨key, built⟩ := build_of_cacheable (C := C) cacheable g
    obtain rfl := CacheKey.build_generation built
    dsimp only
    rw [built]
    refine ⟨asked, fun k hk => ?_, nofun⟩
    cases hk
    exact ⟨List.mem_cons_self, built⟩
  | error e =>
    have fault : Fault (⟨.backend (.generation (buildKeyInput I C call).nameSpace), .error e⟩ ::
      done) := ⟨_, _, List.mem_cons_self, e, rfl⟩
    dsimp only
    split
    · exact ⟨trivial, fun _ => ⟨asked.cons rfl _, nofun, fun _ _ => fault.grow (List.suffix_cons _ _)⟩⟩
    · exact ⟨asked, nofun, fun _ _ => fault⟩

private theorem missed_l1Get {e : Int} (missed : Missed I X C done) :
    (l1Get e : Code V _).Ensures (fun _ after => Missed I X C after ∧ done <:+ after) done := by
  unfold l1Get
  simp only [bind_eq, perform_bind, pure_eq]
  refine ⟨trivial, fun looked => ?_⟩
  have hl : Missed I X C (⟨.l1Lookup e, looked⟩ :: done) := missed.cons rfl looked
  have hs : done <:+ ⟨.l1Lookup e, looked⟩ :: done := List.suffix_cons _ _
  cases looked with
  | absent | live => exact ⟨hl, hs⟩
  | expired => exact ⟨trivial, fun _ => ⟨hl.cons rfl _, hs.trans (List.suffix_cons _ _)⟩⟩

/-- A lookup that finds nothing has rejected what the backend answered. -/
theorem missed_lookupValue {e : Int} (missed : Missed I X C done)
    (read : ⟨.backend (.generation I.nameSpace), .ok key.generation⟩ ∈ done) :
    (lookupValue I X C e key).Ensures (fun a after => (a = .ok none → Missed I X C after) ∧
      ∀ m, a = .error m → Fault after) done := by
  unfold lookupValue
  simp only [bind_eq, pure_eq]
  refine (missed_l1Get missed).andThen fun a looked ⟨hl, hs⟩ _ => ?_
  cases a with
  | some v => exact ⟨trivial, fun _ => ⟨nofun, nofun⟩⟩
  | none =>
    simp only [perform_bind]
    refine ⟨trivial, fun result => ?_⟩
    have pass (other : ∀ bytes, result ≠ .ok (some bytes)) :
        Missed I X C (⟨.backend (.get key.digest), result⟩ :: looked) := hl.pass other
    match result with
    | .error e =>
      have fault : Fault (⟨.backend (.get key.digest), .error e⟩ :: looked) :=
        ⟨_, _, List.mem_cons_self, e, rfl⟩
      refine ⟨trivial, fun _ => ?_⟩
      dsimp only
      split
      · exact ⟨fun _ => (pass nofun).cons rfl _, nofun⟩
      · exact ⟨nofun, fun _ _ => fault.grow (List.suffix_cons _ _)⟩
    | .ok none => exact ⟨trivial, fun _ => ⟨fun _ => (pass nofun).cons rfl _, nofun⟩⟩
    | .ok (some bytes) =>
      dsimp only
      split
      · next e decoded =>
        refine ⟨trivial, fun _ => ⟨fun _ => Missed.cons ?_ rfl _, nofun⟩⟩
        exact hl.reject [] (List.forall_mem_nil _) (.undecoded decoded)
      · next envelope decoded =>
        refine ⟨trivial, fun now => ?_⟩
        have clock (rejected : Rejected I X C key.digest bytes (⟨.nowMs, now⟩ ::
            ⟨.backend (.get key.digest), .ok (some bytes)⟩ :: looked)) :
            Missed I X C (⟨.nowMs, now⟩ ::
              ⟨.backend (.get key.digest), .ok (some bytes)⟩ :: looked) :=
          hl.reject [⟨.nowMs, now⟩] (by simp [Op.isGet]) rejected
        dsimp only
        split
        · split
          · refine ⟨trivial, fun _ => ?_⟩
            exact Prog.ensures_true.andThen fun _ _ _ _ => ⟨nofun, nofun⟩
          · next e value => exact ⟨fun _ => clock (.unreadable decoded value), nofun⟩
        · next old =>
          refine ⟨trivial, fun _ => ⟨fun _ => (clock ?_).cons rfl _, nofun⟩⟩
          refine .stale decoded ?_ (List.suffix_refl _) (by simpa using old)
          exact List.mem_cons_of_mem _ (List.mem_cons_of_mem _ (hs.subset read))

/-! ### The hooks -/

theorem Missed.waited {load : LoadId} (missed : Missed I X C done) :
    (wait load : Code V Unit).Ensures (fun _ after => Missed I X C after) done :=
  waits_wait.ensures (fun _ op r hop kept => kept.cons (Op.Waits.mute op hop).2 r) missed

/-- What `before` may return. -/
def Answers (a : Except String (Action V)) (done : Done V) : Prop :=
  (a = .ok .next → Admitted done) ∧ ∀ e, a = .error e → Fault done

private theorem misses_singleflightLoop {remaining : Nat} (cacheable : isCacheable I X call.sql = true)
    (aimed : Aimed I X C call d done) (missed : Missed I X C done)
    (left : 3 ≤ asks done + remaining) :
    (singleflightLoop I X C call d remaining).Obeys (misses I X C call) Answers done := by
  induction remaining generalizing done with
  | zero => exact ⟨fun _ => .tired left, nofun⟩
  | succ remaining ih =>
    simp only [singleflightLoop, bind_eq, perform_bind, pure_eq]
    refine ⟨⟨aimed, missed⟩, fun role => ?_⟩
    have counted : asks (⟨.tryBeginLoad d, role⟩ :: done) = asks done + 1 :=
      List.countP_cons_of_pos rfl
    have asked : Missed I X C (⟨.tryBeginLoad d, role⟩ :: done) := missed.cons rfl role
    cases role with
    | leader => exact ⟨fun _ => .elected List.mem_cons_self, nofun⟩
    | follower load =>
      dsimp only
      split
      · exact ⟨fun _ => .tired (by omega), nofun⟩
      · refine (misses_of_ensures asked.waited waits_wait fun op hop =>
          (Op.Waits.mute op hop).1).andThen fun _ waited hw sw => ?_
        refine (misses_of_ensures (missed_resolveKey cacheable hw) resolves_resolveKey
          Op.Resolves.mute).andThen fun resolved read ⟨hr, hok, herr⟩ sr => ?_
        cases resolved with
        | error e => exact ⟨fun _ => .faulty (herr e rfl), nofun⟩
        | ok key =>
          refine (misses_of_ensures (missed_lookupValue hr (hok key rfl).1) looks_lookupValue
            Op.Looks.mute).andThen fun a looked ⟨hnone, hfault⟩ sl => ?_
          match a with
          | .error e => exact ⟨nofun, fun _ _ => hfault e rfl⟩
          | .ok (some v) => exact ⟨nofun, nofun⟩
          | .ok none =>
            have since := sw.trans (sr.trans sl)
            have more : asks done + 1 ≤ asks looked := counted.symm.trans_le since.sublist.countP_le
            exact ih (aimed.grow ((List.suffix_cons _ _).trans since)) (hnone rfl) (by omega)

private theorem misses_beforeLookup (cacheable : isCacheable I X call.sql = true)
    (blocking : I.policy.blocking = true) (missed : Missed I X C done) :
    (beforeLookup I X C call).Obeys (misses I X C call) Answers done := by
  unfold beforeLookup
  simp only [bind_eq, pure_eq]
  refine (misses_of_ensures (missed_resolveKey cacheable missed) resolves_resolveKey
    Op.Resolves.mute).andThen fun resolved read ⟨hr, hok, herr⟩ _ => ?_
  cases resolved with
  | error e =>
    dsimp only
    split
    · exact ⟨fun _ => .faulty (herr e rfl), nofun⟩
    · exact ⟨nofun, fun _ _ => herr e rfl⟩
  | ok key =>
    obtain ⟨resolved, built⟩ := hok key rfl
    refine (misses_of_ensures (missed_lookupValue hr resolved) looks_lookupValue
      Op.Looks.mute).andThen fun a looked ⟨hnone, hfault⟩ sl => ?_
    match a with
    | .error e => exact ⟨nofun, fun _ _ => hfault e rfl⟩
    | .ok (some v) => exact ⟨nofun, nofun⟩
    | .ok none =>
      simp only [blocking, if_true]
      have aimed : Aimed I X C call key.digest looked := ⟨key, sl.subset resolved, built, rfl⟩
      exact misses_singleflightLoop cacheable aimed (hnone rfl) (Nat.le_add_left _ _)

private theorem misses_before (cacheable : isCacheable I X call.sql = true)
    (blocking : I.policy.blocking = true) (outside : call.rb.isInTransaction = false)
    (missed : Missed I X C done) :
    (before I X C call (.query ())).Obeys (misses I X C call) Answers done := by
  unfold before bufferedValue
  simp only [cacheable, outside, Bool.false_and, Bool.not_true, Bool.false_eq_true, if_false,
    bind_eq, pure_eq, Prog.ret_bind]
  exact misses_beforeLookup cacheable blocking missed

private theorem misses_afterQuery {result : Except String V} :
    (afterQuery I X C call result).Obeys (misses I X C call) (fun _ _ => True) done := by
  unfold afterQuery
  simp only [bind_eq, pure_eq]
  split
  · trivial
  · refine (misses_of_mute (resolves_resolveKey.mono Op.Resolves.mute)).andThen
      fun resolved _ _ _ => ?_
    cases resolved with
    | error => trivial
    | ok key =>
      refine (misses_of_mute (completes_completeLoad.mono Op.Completes.mute)).andThen
        fun _ _ _ _ => ?_
      cases result with
      | error => trivial
      | ok v =>
        refine (misses_of_mute (onL1_l1Put.mono Op.OnL1.mute)).andThen fun _ _ _ _ => ?_
        exact misses_of_mute (deposits_afterStore.mono Op.Deposits.mute)

/-- Nothing has been asked of the database. -/
def Unread (done : Done V) : Prop := ∀ c r, ⟨.databaseQuery c, r⟩ ∉ done

theorem Unread.cons (h : Unread done) {op : Op V} (hop : op.Reads) (r : op.Res) :
    Unread (⟨op, r⟩ :: done) := by
  intro c r' hm
  rcases List.mem_cons.mp hm with hm | hm
  · cases hm
    cases hop
  · exact h c r' hm

/-- What a hook call before the database operation leaves behind. -/
theorem misses_runBefore (cacheable : isCacheable I X call.sql = true)
    (blocking : I.policy.blocking = true) (outside : call.rb.isInTransaction = false) :
    (invoke I X C (.before call (.query ()))).Obeys (misses I X C call) (fun a after =>
      Answers a after ∧ Unread after ∧ ∀ v, a = .ok (.return v) →
        ⟨.leave (.before call (.query ())) (.ok (.return v)), ()⟩ ∈ after) [] := by
  unfold invoke runHook
  simp only [bind_eq, perform_bind, pure_eq]
  refine ⟨trivial, fun _ => ?_⟩
  have nothing : Missed I X C [⟨.enter (.before call (.query ())), ()⟩] := by
    intro k bytes hm
    simp at hm
  have unread : Unread [(⟨.enter (.before call (.query ())), ()⟩ : Sigma (Op.Res (V := V)))] := by
    intro c r hm
    simp at hm
  have kept : (before I X C call (.query ())).Ensures (fun _ after => Unread after)
      [⟨.enter (.before call (.query ())), ()⟩] :=
    reads_before.ensures (fun _ op r hop h => h.cons hop r) unread
  have asks : (before I X C call (.query ())).Obeys (misses I X C call)
      (fun a after => Answers a after ∧ Unread after) [⟨.enter (.before call (.query ())), ()⟩] :=
    ((misses_before cacheable blocking outside nothing).and kept).weaken fun _ _ h => h.1
  refine asks.andThen fun reply before ⟨answers, fresh⟩ _ => ?_
  have left : before <:+ ⟨.leave (.before call (.query ())) reply, ()⟩ :: before :=
    List.suffix_cons _ _
  refine ⟨trivial, fun _ => ⟨⟨fun next => (answers.1 next).grow left,
    fun e he => (answers.2 e he).grow left⟩, fun c r hm => ?_, fun v hv => ?_⟩⟩
  · cases hm with
    | tail _ hm => exact fresh c r hm
  · rw [hv]
    exact List.mem_cons_self

private theorem misses_runAfter {result : Except String V} :
    (invoke I X C (.after call (.query result))).Obeys (misses I X C call) (fun _ _ => True) done := by
  refine obeys_invoke_of_hook trivial ?_
  unfold runHook
  simp only [bind_eq, pure_eq]
  refine Prog.Obeys.andThen (p := after I X C call (.query result)) misses_afterQuery fun a _ _ _ => ?_
  cases a with
  | ok | error => trivial

theorem misses_query (cacheable : isCacheable I X call.sql = true)
    (blocking : I.policy.blocking = true) (outside : call.rb.isInTransaction = false) :
    ((Task.statement (.query call)).program I X C).Obeys (misses I X C call) (Outcome call) [] := by
  refine Prog.Obeys.andThen (Q := fun result after => Outcome call (.queried result) after) ?_
    fun _ _ outcome _ => outcome
  simp only [RbatisCacheInterceptor.query, bind_eq, perform_bind, pure_eq]
  refine (misses_runBefore cacheable blocking outside).andThen fun reply before kept _ => ?_
  obtain ⟨answers, fresh, returned⟩ := kept
  rcases reply with e | _ | v
  · exact .faulty (answers.2 e rfl)
  · refine ⟨⟨answers.1 rfl, fresh⟩, fun result => ?_⟩
    refine misses_runAfter.andThen fun reply after _ later => ?_
    have performed : ⟨.databaseQuery call, result⟩ ∈ after := later.subset List.mem_cons_self
    cases reply with
    | ok | error => exact .asked performed
  · exact .cached rfl (returned v rfl)

end
end RbatisCache.RbatisInterceptor
