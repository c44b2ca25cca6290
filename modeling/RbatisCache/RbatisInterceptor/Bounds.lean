import RbatisCache.Interleaving.Progress
import RbatisCache.RbatisInterceptor.Hooks

/-! How long a statement takes: a bounded number of steps, of which none waits for another task
unless the clock stands still. -/
namespace RbatisCache.RbatisInterceptor
open Interleaving
open Interleaving.Prog (perform bind_eq perform_bind pure_eq ret_bind Bounded)
open RbatisCacheInterceptor

section
variable {V : Type} {I : RbatisCacheInterceptor} {X : Externals Bytes} {C : ValueCodec V}
variable {call : Call V}

private theorem bounded_resolveKey {input : CacheKeyInput} :
    (resolveKey I X input : Code V _).Bounded 2 := by
  refine .call fun result => ?_
  match result with
  | .ok _ => exact .ret 1 _
  | .error _ =>
    simp only [ret_bind]
    split
    · exact .call fun _ => .ret 0 _
    · exact .ret 1 _

private theorem bounded_l1Get {e : Int} : (l1Get e : Code V _).Bounded 2 := by
  refine .call fun result => ?_
  match result with
  | .absent | .live _ => exact .ret 1 _
  | .expired => exact .call fun _ => .ret 0 _

private theorem bounded_l1Put {e : Int} {d : String} {v : V} : (l1Put I e d v).Bounded 5 := by
  refine .call fun _ => .call fun replaced => ?_
  match replaced with
  | true => exact .ret 3 _
  | false =>
    refine .call fun oldest => ?_
    match oldest with
    | none => exact .call fun _ => .ret 1 _
    | some _ => exact .call fun _ => .call fun _ => .ret 0 _

private theorem bounded_lookupValue {e : Int} {key : CacheKey} :
    (lookupValue I X C e key).Bounded 10 := by
  refine (bounded_l1Get.bind fun a => ?_ : Bounded (2 + 8) _)
  match a with
  | some _ => exact .call fun _ => .ret 7 _
  | none =>
    refine .call fun result => ?_
    match result with
    | .ok none => exact .call fun _ => .ret 6 _
    | .error _ =>
      refine .call fun _ => ?_
      simp only [ret_bind]
      split
      · exact .ret 6 _
      · exact .ret 6 _
    | .ok (some bytes) =>
      simp only [ret_bind]
      split
      · exact .call fun _ => .ret 6 _
      · refine .call fun _ => ?_
        simp only [ret_bind]
        split
        · split
          · exact .call fun _ => (bounded_l1Put.bind fun _ => .ret 0 _ : Bounded (5 + 0) _)
          · exact .ret 6 _
        · exact .call fun _ => .ret 5 _

private theorem bounded_storeValue {key : CacheKey} {v : V} {ttl : Duration} :
    (storeValue I X C key v ttl).Bounded 3 := by
  unfold storeValue
  split
  · exact .ret 3 _
  · split
    · exact .ret 3 _
    · refine .call fun _ => ?_
      simp only [ret_bind]
      split
      · exact .ret 2 _
      · refine .call fun result => ?_
        match result with
        | .ok _ => exact .ret 1 _
        | .error _ =>
          refine .call fun _ => ?_
          simp only [ret_bind]
          split
          · exact .ret 0 _
          · exact .ret 0 _

private theorem bounded_completeLoad {d : String} {success : Bool} :
    (completeLoad d success : Code V Unit).Bounded 2 := by
  refine .call fun found => ?_
  match found with
  | true => exact .call fun _ => .ret 0 _
  | false => exact .ret 1 _

private theorem bounded_wait {load : LoadId} : (wait load : Code V Unit).Bounded 3 := by
  refine .call fun loading => ?_
  match loading with
  | true => exact .call fun _ => .call fun _ => .ret 0 _
  | false => exact .ret 2 _

private theorem bounded_singleflightLoop {d : String} {remaining : Nat} :
    (singleflightLoop I X C call d remaining).Bounded (16 * remaining) := by
  induction remaining with
  | zero => exact .ret 0 _
  | succ remaining ih =>
    rw [show 16 * (remaining + 1) = 3 + (2 + (10 + 16 * remaining)) + 1 by omega]
    refine .call fun role => ?_
    match role with
    | .leader => exact .ret _ _
    | .follower load =>
      simp only [ret_bind]
      split
      · exact .ret _ _
      · refine bounded_wait.bind fun _ => bounded_resolveKey.bind fun resolved => ?_
        match resolved with
        | .error _ => exact .ret _ _
        | .ok key =>
          refine bounded_lookupValue.bind fun looked => ?_
          match looked with
          | .error _ | .ok (some _) => exact .ret _ _
          | .ok none => exact ih

private theorem bounded_beforeLookup : (beforeLookup I X C call).Bounded 60 := by
  refine (bounded_resolveKey.bind fun resolved => ?_ : Bounded (2 + (10 + 48)) _)
  match resolved with
  | .error _ =>
    dsimp only
    split
    · exact .ret _ _
    · exact .ret _ _
  | .ok key =>
    refine bounded_lookupValue.bind fun looked => ?_
    match looked with
    | .error _ | .ok (some _) => exact .ret _ _
    | .ok none =>
      dsimp only
      split
      · exact (bounded_singleflightLoop : Bounded (16 * maxSingleflightAttempts) _)
      · exact .ret _ _

private theorem bounded_bufferedValue : (bufferedValue I X C call).Bounded 1 := by
  unfold bufferedValue
  split
  · split
    · exact .call fun _ => .ret 0 _
    · exact .ret 1 _
  · exact .ret 1 _

private theorem bounded_before {result : ResultType Unit Unit} :
    (before I X C call result).Bounded 61 := by
  cases result with
  | exec => exact .ret _ _
  | query =>
    simp only [before]
    split
    · exact .ret _ _
    · refine (bounded_bufferedValue.bind fun buffered => ?_ : Bounded (1 + 60) _)
      cases buffered with
      | some => exact .ret _ _
      | none =>
        dsimp only
        split
        · exact .ret _ _
        · exact bounded_beforeLookup

private theorem bounded_afterStore {key : CacheKey} {v : V} :
    (afterStore I X C call key v).Bounded 4 := by
  simp only [afterStore]
  split
  · exact .ret _ _
  · split
    · refine .call fun buffered => ?_
      cases buffered with
      | true => exact .ret _ _
      | false => exact bounded_storeValue
    · exact bounded_storeValue.mono (by omega)

private theorem bounded_afterQuery {result : Except String V} :
    (afterQuery I X C call result).Bounded 13 := by
  unfold afterQuery
  split
  · exact .ret _ _
  · refine (bounded_resolveKey.bind fun resolved => ?_ : Bounded (2 + (2 + (5 + 4))) _)
    match resolved with
    | .error _ => exact .ret _ _
    | .ok key =>
      refine bounded_completeLoad.bind fun _ => ?_
      match result with
      | .error _ => exact .ret _ _
      | .ok value => exact bounded_l1Put.bind fun _ => bounded_afterStore

private theorem bounded_afterExec {result : Except String ExecResult} :
    (afterExec I call result).Bounded 3 := by
  cases result with
  | error => exact .ret _ _
  | ok er =>
    simp only [afterExec]
    split
    · refine .call fun _ => ?_
      simp only [ret_bind]
      split
      · split
        · exact .call fun _ => .ret _ _
        · exact .ret _ _
      · refine .call fun bumped => ?_
        cases bumped with
        | ok => exact .call fun _ => .ret _ _
        | error =>
          refine .call fun _ => ?_
          simp only [ret_bind]
          split
          · exact .ret _ _
          · exact .ret _ _
    · exact .ret _ _

private theorem bounded_after {result : ResultType (Except String ExecResult) (Except String V)} :
    (after I X C call result).Bounded 13 := by
  cases result with
  | query => exact bounded_afterQuery
  | exec => exact bounded_afterExec.mono (by omega)

/-- Every hook call of a statement. -/
theorem bounded_invoke {hook : Hook V} (hc : hook.call ≠ none) : (invoke I X C hook).Bounded 63 := by
  refine .call fun _ => ?_
  have hbody : (runHook I X C hook).Bounded 61 := by
    cases hook with
    | before call result => exact bounded_before
    | after call result =>
      refine ((bounded_after.mono (by omega : 13 ≤ 61)).bind fun reply => ?_ : Bounded (61 + 0) _)
      match reply with
      | .ok _ | .error _ => exact .ret _ _
    | onEvent event => exact absurd rfl hc
  exact (hbody.bind fun _ => .call fun _ => .ret 0 _ : Bounded (61 + 1) _)

private theorem bounded_query : (query I X C call).Bounded 127 := by
  have hbefore : (invoke I X C (.before call (.query ()))).Bounded 63 := bounded_invoke nofun
  refine (hbefore.bind fun reply => ?_ : Bounded (63 + 64) _)
  match reply with
  | .error _ | .ok (.return _) => exact .ret _ _
  | .ok .next =>
    refine .call fun result => ?_
    have hafter : (invoke I X C (.after call (.query result))).Bounded 63 := bounded_invoke nofun
    refine (hafter.bind fun reply => ?_ : Bounded (63 + 0) _)
    match reply with
    | .error _ | .ok _ => exact .ret _ _

private theorem bounded_exec : (exec I X C call).Bounded 127 := by
  have hbefore : (invoke I X C (.before call (.exec ()))).Bounded 63 := bounded_invoke nofun
  refine (hbefore.bind fun reply => ?_ : Bounded (63 + 64) _)
  match reply with
  | .error _ => exact .ret _ _
  | .ok _ =>
    refine .call fun result => ?_
    have hafter : (invoke I X C (.after call (.exec result))).Bounded 63 := bounded_invoke nofun
    refine (hafter.bind fun reply => ?_ : Bounded (63 + 0) _)
    match reply with
    | .error _ | .ok _ => exact .ret _ _

private theorem bounded_program {task : Task V} (hc : task.call ≠ none) :
    (task.program I X C).Bounded 127 := by
  cases task with
  | statement s =>
    cases s with
    | query call => exact (bounded_query.bind fun _ => .ret 0 _ : Bounded (127 + 0) _)
    | exec call => exact (bounded_exec.bind fun _ => .ret 0 _ : Bounded (127 + 0) _)
  | hook h =>
    exact ((bounded_invoke hc).mono (by omega : 63 ≤ 127)).bind fun _ => .ret 0 _

end

section
variable {B : CacheBackend} {V T : Type} [DecidableEq T] {I : RbatisCacheInterceptor}
variable {X : Externals Bytes} {C : ValueCodec V} {tasks : T → Task V} {w : World B V}
variable {d : Config T (Op V) Op.Res (World B V) (Reply V)}

/-- Any number of tasks that share an interceptor in any state. -/
def sharing (I : RbatisCacheInterceptor) (X : Externals Bytes) (C : ValueCodec V)
    (tasks : T → Task V) (w : World B V) : Config T (Op V) Op.Res (World B V) (Reply V) :=
  ⟨w, [], fun t => (tasks t).program I X C⟩

omit [DecidableEq T] in
/-- No operation waits for anybody once the time is up. -/
theorem perform_isSome {t : T} {op : Op V} {ch : Choice B V} (elapsed : ch.elapsed = true) :
    ((machine B V T I).perform t op ch w).isSome := by
  cases op with
  | awaitNotified load seen => simp [machine, elapsed]
  | _ => rfl

/-- Whatever the others do, a statement or hook call ends after a bounded number of its own steps,
each of which can be taken. -/
def Ends (I : RbatisCacheInterceptor) (t : T) (d : Config T (Op V) Op.Res (World B V) (Reply V)) :
    Prop :=
  (d.history.own t).length ≤ 127 ∧ ∀ op next, d.tasks t = .call op next →
    ∀ ch : Choice B V, ch.elapsed = true → ((machine B V T I).perform t op ch d.world).isSome

theorem ends {A : Restriction T (Op V) Op.Res (Choice B V) (World B V)}
    (run : Reaches (machine B V T I) A (sharing I X C tasks w) d) {t : T}
    (hc : (tasks t).call ≠ none) : Ends I t d := by
  obtain ⟨left, -, hle⟩ := run.own_length (t := t) (bounded_program (I := I) (X := X) (C := C) hc)
  refine ⟨?_, fun op next _ ch elapsed => perform_isSome elapsed⟩
  have hnil : ((sharing I X C tasks w).history.own t).length = 0 := rfl
  omega

end
end RbatisCache.RbatisInterceptor
