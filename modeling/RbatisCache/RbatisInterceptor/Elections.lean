import RbatisCache.RbatisInterceptor.Brackets

/-! Who has begun the loads that are in flight. `complete_load` is keyed by the digest alone: what it
removes and wakes is the load of whoever was elected last. -/
namespace RbatisCache.RbatisInterceptor
open Interleaving
open Interleaving.Prog (bind_eq perform_bind pure_eq Only)
open RbatisCacheInterceptor

section
variable {V : Type}

/-- Whether an election has made its task the leader. -/
def isLead : Sigma (Op.Res (V := V)) → Bool
  | ⟨.tryBeginLoad _, role⟩ => role == .leader
  | _ => false

/-- The digest for which an operation asks for election. -/
def Op.candidate : Op V → Option String
  | .tryBeginLoad d => some d
  | _ => none

/-- The digest for which an operation of `complete_load` is performed. -/
def Op.completed : Op V → Option String
  | .finishLoad d _ | .removeLoad d => some d
  | _ => none

def Uncompleted (done : Done V) : Prop := ∀ e ∈ done, e.1.completed = none

def Unelected (done : Done V) : Prop := ∀ e ∈ done, isLead e = false

/-- `complete_load` has been called, and has removed what it has found. -/
def Completed (d : String) (done : Done V) : Prop :=
  (∃ success, ⟨.finishLoad d success, false⟩ ∈ done) ∨ ⟨.removeLoad d, ()⟩ ∈ done

/-- What a task has been answered when it asked for a generation last. -/
def lastGeneration : Done V → Option (Except CacheError UInt64)
  | [] => none
  | ⟨.backend (.generation _), answer⟩ :: _ => some answer
  | _ :: done => lastGeneration done

variable (I : RbatisCacheInterceptor) (X : Externals Bytes) (C : ValueCodec V)

/-- The key that belongs to the generation read last has this digest. -/
structure ComesTo (call : Call V) (d : String) (done : Done V) : Prop where
  cacheable : isCacheable I X call.sql = true
  key : ∃ g key, lastGeneration done = some (.ok g) ∧
    CacheKey.build X (buildKeyInput I C call) g = .ok key ∧ key.digest = d

/-- What `complete_load` has been called for when `after` is left. -/
structure Settled (call : Call V) (done : Done V) : Prop where
  completes : ∀ d, ComesTo I X C call d done → Completed d done
  own : ∀ d, ⟨.removeLoad d, ()⟩ ∈ done → ComesTo I X C call d done

/-- What a task has done for the election of loaders before each operation. -/
def flies (done : Done V) : Op V → Prop
  | .tryBeginLoad _ => Unelected done ∧ Uncompleted done
  | .finishLoad _ _ => Uncompleted done
  | .removeLoad d => ∃ success rest, done = ⟨.finishLoad d success, true⟩ :: rest ∧ Uncompleted rest
  | .leave (.after call (.query _)) _ => Settled I X C call done
  | _ => True

variable {I X C} {call : Call V} {done : Done V} {d : String} {key : CacheKey}

/-- An operation that has no part in the election of loaders. -/
def Op.Grounded : Op V → Prop
  | .tryBeginLoad _ | .finishLoad _ _ | .removeLoad _ | .leave _ _ => False
  | _ => True

theorem Op.Grounded.flies : ∀ (past : Done V) (op : Op V), op.Grounded → flies I X C past op := by
  intro past op h
  cases op with
  | tryBeginLoad | finishLoad | removeLoad | leave => cases h
  | _ => trivial

theorem Op.Grounded.completed {op : Op V} (h : op.Grounded) : op.completed = none := by
  cases op with
  | finishLoad | removeLoad => cases h
  | _ => rfl

theorem Op.Grounded.isLead {op : Op V} (h : op.Grounded) (r : op.Res) : isLead ⟨op, r⟩ = false := by
  cases op with
  | tryBeginLoad => cases h
  | _ => rfl

theorem Op.Resolves.grounded : ∀ op : Op V, op.Resolves → op.Grounded := by
  intro op h
  cases op with
  | backend | record => trivial
  | _ => cases h

theorem Op.OnL1.grounded : ∀ op : Op V, op.OnL1 → op.Grounded := by
  intro op h
  cases op with
  | l1Lookup | l1Remove | instantNow | l1Replace | l1Oldest | l1Insert => trivial
  | _ => cases h

theorem Op.Looks.grounded : ∀ op : Op V, op.Looks → op.Grounded := by
  intro op h
  cases op with
  | backend | nowMs | record => trivial
  | _ => exact Op.OnL1.grounded _ h

theorem Op.Waits.grounded : ∀ op : Op V, op.Waits → op.Grounded := by
  intro op h
  cases op with
  | loading | notified | awaitNotified => trivial
  | _ => cases h

theorem Op.Listens.grounded : ∀ op : Op V, op.Listens → op.Grounded := by
  intro op h
  cases op with
  | backend | nowMs | insertBuffer | removeBuffer => trivial
  | _ => cases h

theorem Op.Drops.grounded : ∀ op : Op V, op.Drops → op.Grounded := by
  intro op h
  cases op with
  | l1Clear | clearNamespace | backend | record => trivial
  | _ => cases h

theorem Uncompleted.cons (h : Uncompleted done) {e : Sigma (Op.Res (V := V))}
    (he : e.1.completed = none) : Uncompleted (e :: done) :=
  List.forall_mem_cons.mpr ⟨he, h⟩

theorem Unelected.cons (h : Unelected done) {e : Sigma (Op.Res (V := V))}
    (he : isLead e = false) : Unelected (e :: done) :=
  List.forall_mem_cons.mpr ⟨he, h⟩

private theorem lastGeneration_cons {op : Op V} (hop : ∀ n, op ≠ .backend (.generation n))
    (r : op.Res) :
    lastGeneration (⟨op, r⟩ :: done) = lastGeneration done := by
  cases op with
  | backend o =>
    cases o with
    | generation n => exact absurd rfl (hop n)
    | _ => rfl
  | _ => rfl

/-! ### The programs obey -/

/-- A part of a hook call without elections. -/
theorem flies_grounded {α : Type} {p : Prog (Op V) Op.Res α} (h : p.Only Op.Grounded)
    (uncompleted : Uncompleted done) :
    p.Obeys (flies I X C) (fun _ after => Uncompleted after ∧ (Unelected done → Unelected after))
      done := by
  refine (h.obeys (K := fun after => Uncompleted after ∧ (Unelected done → Unelected after)) ?_ ?_ ?_)
  · exact fun past op hop _ => Op.Grounded.flies past op hop
  · intro past op r hop kept
    exact ⟨kept.1.cons hop.completed, fun start => (kept.2 start).cons (hop.isLead r)⟩
  · exact ⟨uncompleted, id⟩

private theorem grounded_resolveKey {input : CacheKeyInput} :
    (resolveKey I X input : Code V _).Only Op.Grounded :=
  resolves_resolveKey.mono Op.Resolves.grounded

private theorem grounded_lookupValue {e : Int} {key : CacheKey} :
    (lookupValue I X C e key).Only Op.Grounded :=
  looks_lookupValue.mono Op.Looks.grounded

private theorem grounded_bufferedValue : (bufferedValue I X C call).Only Op.Grounded := by
  unfold bufferedValue
  simp only [pure_eq]
  split
  · split
    · exact ⟨trivial, fun _ => trivial⟩
    · trivial
  · trivial

private theorem flies_singleflightLoop {remaining : Nat} (unelected : Unelected done)
    (uncompleted : Uncompleted done) :
    (singleflightLoop I X C call d remaining).Obeys (flies I X C) (fun _ after => Uncompleted after)
      done := by
  induction remaining generalizing done with
  | zero => exact uncompleted
  | succ remaining ih =>
    simp only [singleflightLoop, bind_eq, perform_bind, pure_eq]
    refine ⟨⟨unelected, uncompleted⟩, fun role => ?_⟩
    have asked : Uncompleted (⟨.tryBeginLoad d, role⟩ :: done) := uncompleted.cons rfl
    cases role with
    | leader => exact asked
    | follower load =>
      have follows : Unelected (⟨.tryBeginLoad d, .follower load⟩ :: done) := unelected.cons rfl
      dsimp only
      split
      · exact asked
      · refine (flies_grounded (waits_wait.mono Op.Waits.grounded) asked).andThen
          fun _ waited ⟨hw, hwe⟩ _ => ?_
        refine (flies_grounded grounded_resolveKey hw).andThen fun resolved read ⟨hr, hre⟩ _ => ?_
        cases resolved with
        | error => exact hr
        | ok key =>
          refine (flies_grounded grounded_lookupValue hr).andThen fun a looked ⟨hl, hle⟩ _ => ?_
          match a with
          | .error _ | .ok (some _) => exact hl
          | .ok none => exact ih (hle (hre (hwe follows))) hl

private theorem flies_before {result : ResultType Unit Unit} (unelected : Unelected done)
    (uncompleted : Uncompleted done) :
    (before I X C call result).Obeys (flies I X C) (fun _ after => Uncompleted after) done := by
  cases result with
  | exec => exact uncompleted
  | query =>
    unfold before
    simp only [bind_eq, pure_eq]
    split
    · exact uncompleted
    · refine (flies_grounded grounded_bufferedValue uncompleted).andThen
        fun buffered probed ⟨hp, hpe⟩ _ => ?_
      cases buffered with
      | some v => exact hp
      | none =>
        dsimp only
        split
        · exact hp
        · unfold beforeLookup
          simp only [bind_eq, pure_eq]
          refine (flies_grounded grounded_resolveKey hp).andThen fun resolved read ⟨hr, hre⟩ _ => ?_
          cases resolved with
          | error =>
            dsimp only
            split
            · exact hr
            · exact hr
          | ok key =>
            refine (flies_grounded grounded_lookupValue hr).andThen fun a looked ⟨hl, hle⟩ _ => ?_
            match a with
            | .error _ | .ok (some _) => exact hl
            | .ok none =>
              dsimp only
              split
              · exact flies_singleflightLoop (hle (hre (hpe unelected))) hl
              · exact hl

theorem Uncompleted.settled (h : Uncompleted done) (never : ∀ d, ¬ ComesTo I X C call d done) :
    Settled I X C call done where
  completes d comes := absurd comes (never d)
  own d removed := by
    cases h _ removed

private theorem flies_resolveKey (uncompleted : Uncompleted done) :
    (resolveKey I X (buildKeyInput I C call)).Obeys (flies I X C)
      (fun a after => Uncompleted after ∧
        (∀ key, a = .ok key → lastGeneration after = some (.ok key.generation) ∧
          CacheKey.build X (buildKeyInput I C call) key.generation = .ok key) ∧
        ∀ e, a = .error e → ∀ d, ¬ ComesTo I X C call d after) done := by
  unfold resolveKey
  simp only [bind_eq, perform_bind, pure_eq]
  refine ⟨trivial, fun answer => ?_⟩
  have asked : Uncompleted (⟨.backend (.generation (buildKeyInput I C call).nameSpace), answer⟩ ::
    done) := uncompleted.cons rfl
  cases answer with
  | ok g =>
    refine ⟨asked, fun key hk => ?_, fun e he d comes => ?_⟩
    · have built := CacheKey.build_of_mapError hk
      obtain rfl := CacheKey.build_generation built
      exact ⟨rfl, built⟩
    · obtain ⟨-, g', key, read, built, -⟩ := comes
      cases read
      simp [built, Except.mapError] at he
  | error e =>
    have never (d : String) (after : Done V) (read : lastGeneration after = some (.error e)) :
        ¬ ComesTo I X C call d after := by
      rintro ⟨-, g, key, read', -, -⟩
      rw [read] at read'
      cases read'
    dsimp only
    split
    · exact ⟨trivial, fun _ => ⟨asked.cons rfl, fun _ => nofun, fun _ _ d => never d _ rfl⟩⟩
    · exact ⟨asked, fun _ => nofun, fun _ _ d => never d _ rfl⟩

/-- `complete_load` has been called for the key. -/
structure Landed (key : CacheKey) (done : Done V) : Prop where
  read : lastGeneration done = some (.ok key.generation)
  completed : Completed key.digest done
  own : ∀ d, ⟨.removeLoad d, ()⟩ ∈ done → d = key.digest

theorem Completed.cons (h : Completed d done) (e : Sigma (Op.Res (V := V))) :
    Completed d (e :: done) := by
  rcases h with ⟨success, h⟩ | h
  · exact .inl ⟨success, List.mem_cons_of_mem _ h⟩
  · exact .inr (List.mem_cons_of_mem _ h)

theorem Landed.cons (h : Landed key done) {op : Op V} (hop : op.completed = none)
    (other : ∀ n, op ≠ .backend (.generation n)) (r : op.Res) : Landed key (⟨op, r⟩ :: done) where
  read := (lastGeneration_cons other r).trans h.read
  completed := h.completed.cons _
  own d removed := by
    rcases List.mem_cons.mp removed with removed | removed
    · cases removed
      cases hop
    · exact h.own d removed

theorem Landed.settled (h : Landed key done) (cacheable : isCacheable I X call.sql = true)
    (built : CacheKey.build X (buildKeyInput I C call) key.generation = .ok key) :
    Settled I X C call done where
  completes d comes := by
    obtain ⟨-, g, key', read, built', rfl⟩ := comes
    rw [h.read] at read
    cases read
    rw [built] at built'
    cases built'
    exact h.completed
  own d removed := ⟨cacheable, key.generation, key, h.read, built, (h.own d removed).symm⟩

private theorem flies_completeLoad {success : Bool} (uncompleted : Uncompleted done)
    (read : lastGeneration done = some (.ok key.generation)) :
    (completeLoad key.digest success : Code V Unit).Obeys (flies I X C)
      (fun _ after => Landed key after) done := by
  unfold completeLoad
  simp only [bind_eq, perform_bind, pure_eq]
  refine ⟨uncompleted, fun found => ?_⟩
  cases found with
  | false =>
    refine ⟨read, .inl ⟨success, List.mem_cons_self⟩, fun d removed => ?_⟩
    cases removed with
    | tail _ removed => cases uncompleted _ removed
  | true =>
    refine ⟨⟨success, done, rfl, uncompleted⟩, fun _ => ⟨read, .inr List.mem_cons_self, ?_⟩⟩
    intro d removed
    cases removed with
    | head => rfl
    | tail _ removed =>
      cases removed with
      | tail _ removed => cases uncompleted _ removed

theorem Op.OnL1.lands :
    ∀ op : Op V, op.OnL1 → op.completed = none ∧ ∀ n, op ≠ .backend (.generation n) := by
  intro op h
  cases op with
  | l1Lookup | l1Remove | instantNow | l1Replace | l1Oldest | l1Insert => exact ⟨rfl, nofun⟩
  | _ => cases h

theorem Op.Deposits.lands :
    ∀ op : Op V, op.Deposits → op.completed = none ∧ ∀ n, op ≠ .backend (.generation n) := by
  intro op h
  cases op with
  | backend o =>
    cases o with
    | put => exact ⟨rfl, nofun⟩
    | _ => cases h
  | nowMs | record | bufferPut => exact ⟨rfl, nofun⟩
  | _ => cases h

theorem Op.Deposits.grounded : ∀ op : Op V, op.Deposits → op.Grounded := by
  intro op h
  cases op with
  | backend | nowMs | record | bufferPut => trivial
  | _ => cases h

/-- What `after` does with a result when it has called `complete_load`. -/
theorem flies_landed {α : Type} {p : Prog (Op V) Op.Res α} {P : Op V → Prop} (h : p.Only P)
    (grounded : ∀ op, P op → op.Grounded)
    (lands : ∀ op, P op → op.completed = none ∧ ∀ n, op ≠ .backend (.generation n))
    (landed : Landed key done) : p.Obeys (flies I X C) (fun _ after => Landed key after) done := by
  refine h.obeys (fun past op hop _ => Op.Grounded.flies past op (grounded op hop)) ?_ landed
  exact fun past op r hop kept => kept.cons (lands op hop).1 (lands op hop).2 r

private theorem flies_afterQuery {result : Except String V} (uncompleted : Uncompleted done) :
    (afterQuery I X C call result).Obeys (flies I X C) (fun _ after => Settled I X C call after)
      done := by
  unfold afterQuery
  simp only [bind_eq, pure_eq]
  split
  · next refused => exact uncompleted.settled fun d comes => by simp [comes.cacheable] at refused
  · next cacheable =>
    refine (flies_resolveKey uncompleted).andThen fun resolved read ⟨hr, hok, herr⟩ _ => ?_
    cases resolved with
    | error e => exact hr.settled (herr e rfl)
    | ok key =>
      obtain ⟨last, built⟩ := hok key rfl
      have settles {after : Done V} (landed : Landed key after) : Settled I X C call after :=
        landed.settled (by simpa using cacheable) built
      refine (flies_completeLoad hr last).andThen fun _ completed hc _ => ?_
      cases result with
      | error e => exact settles hc
      | ok v =>
        refine (flies_landed onL1_l1Put Op.OnL1.grounded Op.OnL1.lands hc).andThen
          fun _ filled hf _ => ?_
        exact (flies_landed deposits_afterStore Op.Deposits.grounded Op.Deposits.lands hf).mono
          fun _ _ landed => settles landed

private theorem flies_after {result : ResultType (Except String ExecResult) (Except String V)}
    (uncompleted : Uncompleted done) :
    (after I X C call result).Obeys (flies I X C)
      (fun _ after => ∀ reply, flies I X C after (.leave (.after call result) reply)) done := by
  cases result with
  | query result => exact (flies_afterQuery uncompleted).mono fun _ _ settled _ => settled
  | exec result =>
    have grounded : (afterExec I call result).Only Op.Grounded :=
      drops_afterExec.mono Op.Drops.grounded
    exact (flies_grounded grounded uncompleted).mono fun _ _ _ _ => trivial

private theorem flies_runAfter {result : ResultType (Except String ExecResult) (Except String V)}
    (uncompleted : Uncompleted done) :
    (invoke I X C (.after call result)).Obeys (flies I X C) (fun _ _ => True) done := by
  have entered : Uncompleted (⟨.enter (.after call result), ()⟩ :: done) := uncompleted.cons rfl
  refine obeys_invoke_of_hook trivial ?_
  unfold runHook
  simp only [bind_eq, pure_eq]
  refine (flies_after entered).andThen fun reply _ leaves _ => ?_
  cases reply with
  | ok => exact leaves _
  | error => exact leaves _

private theorem flies_runBefore {result : ResultType Unit Unit} :
    (invoke I X C (.before call result)).Obeys (flies I X C) (fun _ after => Uncompleted after)
      [] := by
  unfold invoke runHook
  simp only [bind_eq, perform_bind, pure_eq]
  have nothing : Uncompleted ([] : Done V) := fun e he => by cases he
  have nobody : Unelected ([] : Done V) := fun e he => by cases he
  refine ⟨trivial, fun _ => ?_⟩
  refine (flies_before (nobody.cons rfl) (nothing.cons rfl)).andThen fun reply ran hr _ => ?_
  exact ⟨trivial, fun _ => hr.cons rfl⟩

private theorem flies_program {task : Task V} :
    (task.program I X C).Obeys (flies I X C) (fun _ _ => True) [] := by
  have nothing : Uncompleted ([] : Done V) := fun e he => by cases he
  cases task with
  | statement s =>
    cases s with
    | query call =>
      refine Prog.Obeys.andThen (Q := fun _ _ => True) ?_ fun _ _ _ _ => trivial
      simp only [RbatisCacheInterceptor.query, bind_eq, perform_bind, pure_eq]
      refine flies_runBefore.andThen fun reply before hb _ => ?_
      rcases reply with _ | _ | _
      · trivial
      · refine ⟨trivial, fun result => ?_⟩
        refine (flies_runAfter (hb.cons rfl)).andThen fun reply _ _ _ => ?_
        cases reply with
        | ok | error => trivial
      · trivial
    | exec call =>
      refine Prog.Obeys.andThen (Q := fun _ _ => True) ?_ fun _ _ _ _ => trivial
      simp only [RbatisCacheInterceptor.exec, bind_eq, perform_bind, pure_eq]
      refine flies_runBefore.andThen fun reply before hb _ => ?_
      cases reply with
      | error => trivial
      | ok =>
        refine ⟨trivial, fun result => ?_⟩
        refine (flies_runAfter (hb.cons rfl)).andThen fun reply _ _ _ => ?_
        cases reply with
        | ok | error => trivial
  | hook h =>
    have invoked : (invoke I X C h).Obeys (flies I X C) (fun _ _ => True) [] := by
      cases h with
      | before call result => exact flies_runBefore.mono fun _ _ _ => trivial
      | after call result => exact flies_runAfter nothing
      | onEvent event =>
        refine obeys_invoke_of_hook trivial ?_
        unfold runHook
        simp only [bind_eq, pure_eq]
        refine (flies_grounded (listens_onEvent.mono Op.Listens.grounded)
          (nothing.cons rfl)).andThen fun _ _ _ _ => trivial
    exact invoked.andThen fun _ _ _ _ => trivial

end

/-! ### The loads in flight -/

section
variable {V T : Type}

/-- The elections that have begun a load, which is the number that the next load gets. -/
def elections (h : History V T) : LoadId := h.countP fun e => isLead ⟨e.op, e.result⟩

/-- Whose load is in flight for a digest. -/
def holder : History V T → String → Option (T × LoadId)
  | [], _ => none
  | ⟨t, .tryBeginLoad d', role⟩ :: h, d =>
    if role = .leader ∧ d' = d then some (t, elections h) else holder h d
  | ⟨_, .removeLoad d', _⟩ :: h, d => if d' = d then none else holder h d
  | _ :: h, d => holder h d

/-- What the election and `complete_load` have found in the map. -/
def FoundHeld (e : Event T (Op V) Op.Res) (h : History V T) : Prop :=
  match e with
  | ⟨_, .tryBeginLoad d, role⟩ => role = .leader ↔ holder h d = none
  | ⟨_, .finishLoad d _, found⟩ => found = (holder h d).isSome
  | _ => True

variable {B : CacheBackend}

/-- The map holds the loads that are in flight. -/
structure Tracked (w : World B V) (h : History V T) : Prop where
  entries : ∀ d, w.singleflight.map.lookup d = (holder h d).map Prod.snd
  created : w.singleflight.created = elections h
  found : h.Always FoundHeld

variable {t : T} {d : String} {n : LoadId} {h : History V T} {op : Op V} {r : op.Res}

theorem holder_lead : holder (⟨t, .tryBeginLoad d, .leader⟩ :: h) d = some (t, elections h) :=
  if_pos ⟨rfl, rfl⟩

theorem holder_lead_ne {d' : String} (other : d' ≠ d) :
    holder (⟨t, .tryBeginLoad d', .leader⟩ :: h) d = holder h d :=
  if_neg fun same => other same.2

theorem holder_follow {d' : String} : holder (⟨t, .tryBeginLoad d', .follower n⟩ :: h) d = holder h d :=
  if_neg fun same => by cases same.1

theorem holder_remove : holder (⟨t, .removeLoad d, ()⟩ :: h) d = none := if_pos rfl

theorem holder_remove_ne {d' : String} (other : d' ≠ d) :
    holder (⟨t, .removeLoad d', ()⟩ :: h) d = holder h d :=
  if_neg other

/-- An operation that leaves the loads in flight alone. -/
def Op.Hovers : Op V → Prop
  | .tryBeginLoad _ | .removeLoad _ => False
  | _ => True

theorem holder_hover (hop : op.Hovers) : holder (⟨t, op, r⟩ :: h) d = holder h d := by
  cases op with
  | tryBeginLoad | removeLoad => cases hop
  | _ => rfl

private theorem elections_cons_of_not (hop : isLead ⟨op, r⟩ = false) :
    elections (⟨t, op, r⟩ :: h) = elections h :=
  List.countP_cons_of_neg (by simp [hop])

private theorem elections_lead : elections (⟨t, .tryBeginLoad d, .leader⟩ :: h) = elections h + 1 :=
  List.countP_cons_of_pos rfl

/-- Somebody has removed the load for the digest since. -/
def LoadRemoved (d : String) (since h : History V T) : Prop :=
  ∃ u q, ⟨u, .removeLoad d, ()⟩ :: q <:+ h ∧ since <:+ q

theorem LoadRemoved.mono {s g : History V T} (removed : LoadRemoved d s g) (hs : g <:+ h) :
    LoadRemoved d s h := by
  obtain ⟨u, q, hq, since⟩ := removed
  exact ⟨u, q, hq.trans hs, since⟩

theorem LoadRemoved.of_cons {s : History V T} {e : Event T (Op V) Op.Res}
    (removed : LoadRemoved d s (e :: h)) (other : ∀ u, e ≠ ⟨u, .removeLoad d, ()⟩) :
    LoadRemoved d s h := by
  obtain ⟨u, q, hq, since⟩ := removed
  rcases List.suffix_cons_iff.mp hq with same | hq
  · cases same
    exact absurd rfl (other u)
  · exact ⟨u, q, hq, since⟩

/-- A load in flight was begun by an election for its digest, and was not removed since. -/
theorem begun_of_holder (held : holder h d = some (t, n)) :
    ∃ p, ⟨t, .tryBeginLoad d, .leader⟩ :: p <:+ h ∧ elections p = n ∧
      ¬ LoadRemoved d (⟨t, .tryBeginLoad d, .leader⟩ :: p) h := by
  induction h with
  | nil => cases held
  | cons e h ih =>
    have older (held : holder h d = some (t, n)) (other : ∀ u, e ≠ ⟨u, .removeLoad d, ()⟩) :
        ∃ p, ⟨t, .tryBeginLoad d, .leader⟩ :: p <:+ e :: h ∧ elections p = n ∧
          ¬ LoadRemoved d (⟨t, .tryBeginLoad d, .leader⟩ :: p) (e :: h) := by
      obtain ⟨p, hp, number, kept⟩ := ih held
      exact ⟨p, hp.trans (List.suffix_cons _ _), number, fun removed => kept (removed.of_cons other)⟩
    obtain ⟨u, op, r⟩ := e
    by_cases hover : op.Hovers
    · rw [holder_hover hover] at held
      refine older held fun u same => ?_
      cases same
      cases hover
    · cases op with
      | tryBeginLoad d' =>
        cases r with
        | follower load =>
          rw [holder_follow] at held
          exact older held nofun
        | leader =>
          by_cases same : d' = d
          · subst same
            rw [holder_lead] at held
            cases held
            refine ⟨h, List.suffix_refl _, rfl, fun removed => ?_⟩
            obtain ⟨u, q, hq, since⟩ := removed
            have shorter := since.length_le
            have longer := hq.length_le
            simp only [List.length_cons] at shorter longer
            omega
          · rw [holder_lead_ne same] at held
            exact older held nofun
      | removeLoad d' =>
        by_cases same : d' = d
        · subst same
          rw [holder_remove] at held
          cases held
        · rw [holder_remove_ne same] at held
          refine older held fun u removal => ?_
          cases removal
          exact same rfl
      | _ => exact absurd trivial hover

/-- A load that nobody has removed is in flight. -/
theorem holder_of_not_removed {p : History V T} (found : h.Always FoundHeld)
    (elected : ⟨t, .tryBeginLoad d, .leader⟩ :: p <:+ h)
    (kept : ¬ LoadRemoved d (⟨t, .tryBeginLoad d, .leader⟩ :: p) h) :
    holder h d = some (t, elections p) := by
  obtain ⟨g, rfl⟩ := elected
  induction g with
  | nil => exact holder_lead
  | cons e g ih =>
    have tail := List.suffix_cons e (g ++ ⟨t, .tryBeginLoad d, .leader⟩ :: p)
    have held := ih (found.suffix tail) fun removed => kept (removed.mono tail)
    have answered := found _ _ (List.suffix_refl _)
    obtain ⟨u, op, r⟩ := e
    rw [List.cons_append]
    by_cases hover : op.Hovers
    · rwa [holder_hover hover]
    · cases op with
      | tryBeginLoad d' =>
        cases r with
        | follower load => rwa [holder_follow]
        | leader =>
          by_cases same : d' = d
          · subst same
            have free : holder (g ++ ⟨t, .tryBeginLoad d', .leader⟩ :: p) d' = none := answered.mp rfl
            rw [held] at free
            cases free
          · rwa [holder_lead_ne same]
      | removeLoad d' =>
        by_cases same : d' = d
        · subst same
          exact absurd ⟨u, _, List.suffix_refl _, List.suffix_append _ _⟩ kept
        · rwa [holder_remove_ne same]
      | _ => exact absurd trivial hover

private theorem elections_mono {g : History V T} (hs : g <:+ h) : elections g ≤ elections h :=
  hs.sublist.countP_le

/-- The number of a load tells its election. -/
theorem election_unique {u : T} {d' : String} {p q : History V T}
    (hp : ⟨t, .tryBeginLoad d, .leader⟩ :: p <:+ h) (hq : ⟨u, .tryBeginLoad d', .leader⟩ :: q <:+ h)
    (same : elections p = elections q) :
    (⟨t, .tryBeginLoad d, .leader⟩ :: p : History V T) = ⟨u, .tryBeginLoad d', .leader⟩ :: q := by
  rcases List.suffix_or_suffix_of_suffix hp hq with hs | hs
  · rcases List.suffix_cons_iff.mp hs with hs | hs
    · exact hs
    · have fewer := elections_mono hs
      rw [elections_lead, same] at fewer
      exact absurd fewer (Nat.not_succ_le_self _)
  · rcases List.suffix_cons_iff.mp hs with hs | hs
    · exact hs.symm
    · have fewer := elections_mono hs
      rw [elections_lead, ← same] at fewer
      exact absurd fewer (Nat.not_succ_le_self _)

/-- The load of an election is in flight exactly until it is removed. -/
theorem gone_iff_removed {p : History V T} (found : h.Always FoundHeld)
    (elected : ⟨t, .tryBeginLoad d, .leader⟩ :: p <:+ h) :
    (∀ d', (holder h d').map Prod.snd ≠ some (elections p)) ↔
      LoadRemoved d (⟨t, .tryBeginLoad d, .leader⟩ :: p) h := by
  constructor
  · intro gone
    by_contra kept
    refine gone d ?_
    rw [holder_of_not_removed found elected kept]
    rfl
  · intro removed d' held
    obtain ⟨⟨u, n⟩, hu, number⟩ := Option.map_eq_some_iff.mp held
    obtain ⟨q, hq, begun, kept⟩ := begun_of_holder hu
    have same := election_unique elected hq (number.symm.trans begun.symm)
    cases same
    exact kept removed

/-- What an operation does to the map of the loads. -/
theorem flight_of_perform {I : RbatisCacheInterceptor} {ch : Choice B V} {w u : World B V}
    (hm : (machine B V T I).perform t op ch w = some (r, u)) (hop : op.Hovers) :
    u.singleflight.map = w.singleflight.map ∧ u.singleflight.created = w.singleflight.created := by
  cases op with
  | tryBeginLoad | removeLoad => cases hop
  | finishLoad d success =>
    simp only [machine, Option.some.injEq, Prod.mk.injEq] at hm
    obtain ⟨-, rfl⟩ := hm
    simp only [World.setFlight, SingleFlight.finishLoad]
    split
    · exact ⟨rfl, rfl⟩
    · exact ⟨rfl, rfl⟩
  | awaitNotified load seen =>
    simp only [machine] at hm
    split at hm
    · cases hm
      exact ⟨rfl, rfl⟩
    · cases hm
  | bufferPut taskId key v =>
    simp only [machine, Option.some.injEq, World.onBuffer] at hm
    split at hm
    · cases hm
      exact ⟨rfl, rfl⟩
    · cases hm
      exact ⟨rfl, rfl⟩
  | clearNamespace taskId n =>
    simp only [machine, Option.some.injEq, World.onBuffer] at hm
    split at hm
    · cases hm
      exact ⟨rfl, rfl⟩
    · cases hm
      exact ⟨rfl, rfl⟩
  | _ =>
    cases hm
    exact ⟨rfl, rfl⟩

theorem Tracked.hover {I : RbatisCacheInterceptor} {ch : Choice B V} {w u : World B V}
    (tracked : Tracked w h) (hop : op.Hovers) (hf : FoundHeld ⟨t, op, r⟩ h)
    (hm : (machine B V T I).perform t op ch w = some (r, u)) : Tracked u (⟨t, op, r⟩ :: h) := by
  obtain ⟨map, created⟩ := flight_of_perform hm hop
  have ground : isLead ⟨op, r⟩ = false := by
    cases op with
    | tryBeginLoad => cases hop
    | _ => rfl
  refine ⟨fun d => ?_, ?_, tracked.found.cons hf⟩
  · rw [map, holder_hover hop, tracked.entries]
  · rw [created, elections_cons_of_not ground, tracked.created]

private theorem tracked_begin {I : RbatisCacheInterceptor} {ch : Choice B V} {w u : World B V}
    {role : LoadRole} (tracked : Tracked w h)
    (hm : (machine B V T I).perform t (.tryBeginLoad d) ch w = some (role, u)) :
    Tracked u (⟨t, .tryBeginLoad d, role⟩ :: h) := by
  have held := tracked.entries d
  simp only [machine, Option.some.injEq, Prod.mk.injEq, SingleFlight.tryBeginLoad] at hm
  cases hl : w.singleflight.map.lookup d with
  | some load =>
    rw [hl] at hm
    obtain ⟨rfl, rfl⟩ := hm
    rw [hl] at held
    have follows : FoundHeld ⟨t, .tryBeginLoad d, .follower load⟩ h := by
      refine ⟨nofun, fun free => ?_⟩
      rw [free] at held
      cases held
    refine ⟨fun d' => ?_, ?_, tracked.found.cons follows⟩
    · rw [holder_follow]
      exact tracked.entries d'
    · exact tracked.created.trans (elections_cons_of_not rfl).symm
  | none =>
    rw [hl] at hm
    obtain ⟨rfl, rfl⟩ := hm
    rw [hl] at held
    have leads : FoundHeld ⟨t, .tryBeginLoad d, .leader⟩ h :=
      ⟨fun _ => Option.map_eq_none_iff.mp held.symm, fun _ => rfl⟩
    refine ⟨fun d' => ?_, ?_, tracked.found.cons leads⟩
    · by_cases same : d = d'
      · subst same
        rw [holder_lead]
        exact (AList.lookup_insert _).trans (congrArg some tracked.created)
      · rw [holder_lead_ne same]
        exact (AList.lookup_insert_ne (Ne.symm same)).trans (tracked.entries d')
    · rw [elections_lead]
      exact congrArg (· + 1) tracked.created

private theorem tracked_remove {I : RbatisCacheInterceptor} {ch : Choice B V} {w u : World B V}
    (tracked : Tracked w h)
    (hm : (machine B V T I).perform t (.removeLoad d) ch w = some ((), u)) :
    Tracked u (⟨t, .removeLoad d, ()⟩ :: h) := by
  cases hm
  refine ⟨fun d' => ?_, tracked.created.trans (elections_cons_of_not rfl).symm,
    tracked.found.cons trivial⟩
  by_cases same : d = d'
  · subst same
    rw [holder_remove]
    exact AList.lookup_erase _ _
  · rw [holder_remove_ne same]
    exact (AList.lookup_erase_ne (Ne.symm same)).trans (tracked.entries d')

private theorem tracked_step {I : RbatisCacheInterceptor} {ch : Choice B V} {w u : World B V}
    (tracked : Tracked w h)
    (hm : (machine B V T I).perform t op ch w = some (r, u)) : Tracked u (⟨t, op, r⟩ :: h) := by
  cases op with
  | tryBeginLoad d => exact tracked_begin tracked hm
  | removeLoad d => exact tracked_remove tracked hm
  | finishLoad d success =>
    refine tracked.hover trivial ?_ hm
    simp only [machine, Option.some.injEq, Prod.mk.injEq, SingleFlight.finishLoad] at hm
    obtain ⟨found, -⟩ := hm
    have held := tracked.entries d
    rw [FoundHeld, ← found]
    cases hl : w.singleflight.map.lookup d with
    | none =>
      rw [hl] at held
      rw [Option.map_eq_none_iff.mp held.symm]
      rfl
    | some load =>
      rw [hl] at held
      obtain ⟨_, hh, -⟩ := Option.map_eq_some_iff.mp held.symm
      rw [hh]
      rfl
  | _ => exact tracked.hover trivial trivial hm

variable [DecidableEq T] {I : RbatisCacheInterceptor} {X : Externals Bytes} {C : ValueCodec V}
variable {A : Restriction T (Op V) Op.Res (Choice B V) (World B V)}

/-- In every run the map holds the loads that are in flight. -/
theorem reaches_tracked {tasks : T → Task V} {state : B.State}
    {c : Config T (Op V) Op.Res (World B V) (Reply V)}
    (run : Reaches (machine B V T I) A (initial I X C tasks state) c) :
    Lawful (fun _ => flies I X C) c.history ∧ Tracked c.world c.history ∧
      c.Obeys (fun _ => flies I X C) fun _ _ _ => True := by
  refine run.lawful (fun t op ch w h r u _ tracked _ _ hm => tracked_step tracked hm)
    (fun _ => flies_program) rfl ⟨fun d => ?_, rfl, History.always_nil⟩
  rfl

end
end RbatisCache.RbatisInterceptor
