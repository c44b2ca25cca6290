import RbatisCache.RbatisInterceptor.Generations
import RbatisCache.RbatisInterceptor.Sample

/-! Which statements invalidate. The `after` of an exec that has changed rows raises the generation,
or marks the buffer of its transaction; the hooks of a query never do. -/
namespace RbatisCache.RbatisInterceptor
open Interleaving
open Interleaving.Prog (bind_eq perform_bind pure_eq Only Obeys)
open RbatisCacheInterceptor

/-! ### The counter of a backend that never fails -/

section
variable {B : CacheBackend} {V T : Type} {I : RbatisCacheInterceptor} {H : B.Healthy} {n : String}

private theorem counter_step {w u : World B V} {t : T} {op : Op V} {ch : Choice B V} {r : op.Res}
    (hm : (machine B V T I).perform t op ch w = some (r, u)) :
    (H.abs u.backend).counter n =
      (H.abs w.backend).counter n + if isBump n (⟨t, op, r⟩ : Event T (Op V) Op.Res) then 1 else 0 := by
  by_cases hop : ∀ o, op ≠ .backend o
  · have hquiet : isBump n (⟨t, op, r⟩ : Event T (Op V) Op.Res) = false := by
      cases op with
      | backend o => exact absurd rfl (hop o)
      | _ => rfl
    rw [backend_of_perform hop hm, hquiet]
    simp
  · push Not at hop
    obtain ⟨o, rfl⟩ := hop
    obtain ⟨-, rfl⟩ := Prod.mk.inj (Option.some.inj hm)
    have hs := H.serves o ch.backend w.backend
    cases o with
    | get => simp [isBump, hs.2.counter]
    | put => simp [isBump, hs.2.counter]
    | generation => simp [isBump, hs.2.counter]
    | bumpGeneration m =>
      by_cases hmn : m = n
      · subst hmn
        simp [isBump, hs.2.counter]
      · simp [isBump, hs.2.counter, hmn, Store.bump_counter_ne _ (Ne.symm hmn)]

private theorem counter_advances {w u : World B V} {t : T} {op : Op V} {ch : Choice B V} {r : op.Res}
    {h : History V T} {first : UInt64}
    (hm : (machine B V T I).perform t op ch w = some (r, u))
    (hc : (H.abs w.backend).counter n = first + UInt64.ofNat (bumps n h)) :
    (H.abs u.backend).counter n = first + UInt64.ofNat (bumps n (⟨t, op, r⟩ :: h)) := by
  rw [counter_step hm, hc, bumps, bumps, List.countP_cons]
  split
  · rw [UInt64.ofNat_add, UInt64.add_assoc]
    rfl
  · simp

variable [DecidableEq T] {A : Restriction T (Op V) Op.Res (Choice B V) (World B V)}
variable {c d : Config T (Op V) Op.Res (World B V) (Reply V)}

/-- A generation counts the bumps of its namespace, modulo 2^64. -/
theorem counter_of_reaches (run : Reaches (machine B V T I) A c d) :
    ∃ g, d.history = g ++ c.history ∧ (H.abs d.world.backend).counter n =
      (H.abs c.world.backend).counter n + UInt64.ofNat (bumps n g) := by
  induction run with
  | refl => exact ⟨[], rfl, by simp [bumps]⟩
  | tail _ hs ih =>
    obtain ⟨g, hg, hc⟩ := ih
    obtain @⟨t, ch, op, next, r, w, _, _, hm⟩ := hs
    exact ⟨⟨t, op, r⟩ :: g, by rw [hg]; rfl, counter_advances hm hc⟩

/-- A generation is as many bumps ahead of `first` as there have been. -/
structure Numbered (H : B.Healthy) (first : String → UInt64) (w : World B V) (h : History V T) :
    Prop where
  counter : ∀ n, (H.abs w.backend).counter n = first n + UInt64.ofNat (bumps n h)
  answered : h.Always fun e s => ∀ t n g, e = ⟨t, .backend (.generation n), .ok g⟩ →
    g = first n + UInt64.ofNat (bumps n s)

theorem reaches_numbered {X : Externals Bytes} {C : ValueCodec V} {tasks : T → Task V}
    {state : B.State} (H : B.Healthy)
    (run : Reaches (machine B V T I) A (initial I X C tasks state) d) :
    Numbered H (H.abs state).counter d.world d.history := by
  have hp : Preserves (machine B V T I) A (fun t => rule I X C (tasks t))
      (Numbered H (H.abs state).counter) := by
    intro t op ch w h r u hi _ _ hm
    refine ⟨fun n => counter_advances hm (hi.counter n), hi.answered.cons fun t' n g he => ?_⟩
    cases he
    have hs := H.serves (.generation n) ch.backend w.backend
    have hr : (B.perform (.generation n) ch.backend w.backend).1 = .ok g :=
      congrArg Prod.fst (Option.some.inj hm)
    rw [hr] at hs
    rw [Except.ok.inj hs.1, hi.counter]
  have hstart : Numbered H (H.abs state).counter (initial I X C tasks state).world
      ([] : History V T) :=
    ⟨fun n => by simp [initial, World.new, bumps], History.always_nil⟩
  exact (run.preserves hp (obeys_initial tasks state) hstart).1

end

section
variable {V : Type} (I : RbatisCacheInterceptor)

/-- What the `after` of an exec that has changed rows has done when it leaves. -/
structure Invalidated (call : Call V) (done : Done V) : Prop where
  outside : call.rb.isInTransaction = false → ∃ r, ⟨.backend (.bumpGeneration I.nameSpace), r⟩ ∈ done
  inside : call.rb.isInTransaction = true → I.policy.transactionMode = .defer →
    ⟨.clearNamespace call.taskId I.nameSpace, ()⟩ ∈ done

def invalidates (done : Done V) : Op V → Prop
  | .clearNamespace _ n => n = I.nameSpace
  | .leave (.after call (.exec (.ok er))) _ => 0 < er.rowsAffected → Invalidated I call done
  | _ => True

variable {I} {X : Externals Bytes} {C : ValueCodec V} {done : Done V} {call : Call V}

private theorem invalidates_of_queries {op : Op V} (hop : op.Queries) : invalidates I done op := by
  cases op with
  | leave | clearNamespace => cases hop
  | _ => trivial

private theorem invalidates_of_listens {op : Op V} (hop : op.Listens) : invalidates I done op := by
  cases op with
  | leave | clearNamespace => cases hop
  | _ => trivial

private theorem invalidates_afterExec {result : Except String ExecResult} :
    (afterExec I call result).Obeys (invalidates I) (fun _ after =>
      ∀ er, result = .ok er → 0 < er.rowsAffected → Invalidated I call after) done := by
  match result with
  | .error _ => exact nofun
  | .ok er =>
    unfold afterExec
    simp only [bind_eq, perform_bind, pure_eq]
    split
    · refine ⟨trivial, fun _ => ?_⟩
      split
      · next tx =>
        split
        · refine ⟨rfl, fun _ _ _ _ => ⟨fun h => ?_, fun _ _ => List.mem_cons_self⟩⟩
          rw [tx] at h
          cases h
        · next mode =>
          refine fun _ _ _ => ⟨fun h => ?_, fun _ h => ?_⟩
          · rw [tx] at h
            cases h
          · rw [h] at mode
            exact absurd rfl mode
      · next tx =>
        have outside {r : (BackendOp.bumpGeneration I.nameSpace).Res} {after : Done V}
            (hm : ⟨.backend (.bumpGeneration I.nameSpace), r⟩ ∈ after) : Invalidated I call after :=
          ⟨fun _ => ⟨r, hm⟩, fun h => absurd h tx⟩
        unfold invalidate
        simp only [bind_eq, perform_bind, pure_eq]
        refine ⟨trivial, fun bumped => ?_⟩
        match bumped with
        | .ok _ => exact ⟨trivial, fun _ _ _ _ => outside (List.mem_cons_of_mem _ List.mem_cons_self)⟩
        | .error _ =>
          refine ⟨trivial, fun _ => ?_⟩
          dsimp only
          split
          · exact fun _ _ _ => outside (List.mem_cons_of_mem _ List.mem_cons_self)
          · exact fun _ _ _ => outside (List.mem_cons_of_mem _ List.mem_cons_self)
    · next rows =>
      intro er' he hr
      cases he
      exact absurd hr rows

private theorem invalidates_runHook {hook : Hook V} :
    (runHook I X C hook).Obeys (invalidates I) (fun reply after =>
      invalidates I after (.leave hook reply)) done := by
  cases hook with
  | before call result =>
    exact Prog.ensures_true.obeys (reads_before.mono Op.Reads.queries) fun _ _ => invalidates_of_queries
  | after call result =>
    unfold runHook
    simp only [bind_eq, pure_eq]
    cases result with
    | query result =>
      have hafter : (afterQuery I X C call result).Obeys (invalidates I) (fun _ _ => True) done :=
        Prog.ensures_true.obeys queries_afterQuery fun _ _ => invalidates_of_queries
      refine hafter.andThen fun reply _ _ _ => ?_
      match reply with
      | .ok _ | .error _ => trivial
    | exec result =>
      refine invalidates_afterExec.andThen fun reply after h _ => ?_
      match reply, result with
      | .ok _, .ok er | .error _, .ok er => exact h er rfl
      | .ok _, .error _ | .error _, .error _ => trivial
  | onEvent event =>
    unfold runHook
    simp only [bind_eq, pure_eq]
    have hbody : (onEvent I X C event).Obeys (invalidates I) (fun _ _ => True) done :=
      Prog.ensures_true.obeys listens_onEvent fun _ _ => invalidates_of_listens
    exact hbody.andThen fun _ _ _ _ => trivial

theorem invalidates_program {task : Task V} :
    (task.program I X C).Obeys (invalidates I) (fun _ _ => True) done :=
  obeys_program_of_hooks (fun _ _ => trivial) (fun _ _ => trivial) (fun _ _ => trivial)
    fun _ _ => invalidates_runHook

end

/-! ### Which statements raise the generation -/

section
variable {B : CacheBackend} {V T : Type} [DecidableEq T] {I : RbatisCacheInterceptor}
variable {X : Externals Bytes} {C : ValueCodec V} {tasks : T → Task V} {state : B.State}
variable {A : Restriction T (Op V) Op.Res (Choice B V) (World B V)}
variable {c d : Config T (Op V) Op.Res (World B V) (Reply V)} {t : T}

/-- The protocol of a task, with its brackets and with what it invalidates. -/
def invalidationRule (I : RbatisCacheInterceptor) (X : Externals Bytes) (C : ValueCodec V)
    (task : Task V) (done : Done V) (op : Op V) : Prop :=
  rule I X C task done op ∧ bracket done op ∧ invalidates I done op

private theorem reaches_invalidates (run : Reaches (machine B V T I) A (initial I X C tasks state) d) :
    Lawful (fun t => invalidationRule I X C (tasks t)) d.history :=
  (run.lawful_of_obeys
    (fun _ => obeys_program.and (bracketed_program.and invalidates_program)) rfl).1

private theorem lt_add_ofNat {a : UInt64} {k : Nat} (few : a.toNat + k < 2 ^ 64) :
    a < a + UInt64.ofNat k ↔ 0 < k := by
  have hk : k < UInt64.size := lt_of_le_of_lt (Nat.le_add_left _ _) few
  rw [UInt64.lt_iff_toNat_lt, UInt64.toNat_add, UInt64.toNat_ofNat_of_lt' hk,
    Nat.mod_eq_of_lt few]
  omega

/-- A statement that raises the generation has been handed the changed rows of its exec. -/
theorem exec_of_bump {h : History V T} {s : Statement V} {e : Event T (Op V) Op.Res}
    (lawful : Lawful (fun t => invalidationRule I X C (tasks t)) h)
    (statement : tasks e.task = .statement s) (he : e ∈ h) {n : String} (bump : isBump n e = true) :
    ∃ call er, ⟨e.task, .enter (.after call (.exec (.ok er))), ()⟩ ∈ h ∧ 0 < er.rowsAffected := by
  obtain ⟨t, op, r⟩ := e
  obtain ⟨p, hp⟩ := History.exists_suffix_of_mem he
  have hsuf : p <:+ h := (List.suffix_cons _ _).trans hp
  have hr := (lawful _ _ hp).1
  cases op with
  | backend o =>
    cases o with
    | bumpGeneration m =>
      cases hr with
      | @exec call dml outside cleared own =>
        obtain ⟨er, entered, rows⟩ := dml.entered
        exact ⟨call, er, hsuf.subset (History.mem_own.mp entered), rows⟩
      | commit entered =>
        obtain ⟨q, hq⟩ := History.exists_suffix_of_mem_own entered
        have hook := Task.eq_hook_of_enters (lawful _ _ (hq.trans hsuf)).1
        rw [statement] at hook
        cases hook
    | _ => cases bump
  | _ => cases bump

/-- Outside transactions the generation is larger when the `after` of a statement leaves than it was
before the statement started exactly if the statement was issued through `exec` and has changed rows,
or somebody else has raised the generation in between. -/
theorem generation_rises_iff {H : B.Healthy} {s : Statement V} {call : Call V}
    {result : ResultType (Except String ExecResult) (Except String V)}
    {reply : Except String (Action V)} {g : History V T}
    (start : Reaches (machine B V T I) A (initial I X C tasks state) c)
    (idle : c.history.own t = []) (run : Reaches (machine B V T I) A c d)
    (statement : tasks t = .statement s) (outside : call.rb.isInTransaction = false)
    (left : d.history = ⟨t, .leave (.after call result) reply, ()⟩ :: g ++ c.history)
    (few : ((H.abs c.world.backend).counter I.nameSpace).toNat + bumps I.nameSpace g < 2 ^ 64) :
    (H.abs c.world.backend).counter I.nameSpace < (H.abs d.world.backend).counter I.nameSpace ↔
      (∃ er, result = .exec (.ok er) ∧ 0 < er.rowsAffected) ∨
        ∃ e ∈ g, isBump I.nameSpace e = true ∧ e.task ≠ t := by
  have lawful := reaches_invalidates (start.trans run)
  have hleft : ⟨t, .leave (.after call result) reply, ()⟩ :: (g ++ c.history) <:+ d.history := by
    rw [left]
    exact List.suffix_refl _
  obtain ⟨g', hg', hcounter⟩ := counter_of_reaches (H := H) (n := I.nameSpace) run
  obtain rfl := List.append_cancel_right (left.symm.trans hg')
  have hbumps : bumps I.nameSpace (⟨t, .leave (.after call result) reply, ()⟩ :: g) =
      bumps I.nameSpace g := bumps_cons_of_not nofun
  rw [hcounter, hbumps, lt_add_ofNat few, bumps, List.countP_pos_iff]
  constructor
  · rintro ⟨e, hm, hbump⟩
    by_cases ht : e.task = t
    · subst ht
      have he : e ∈ d.history := hleft.subset (List.mem_cons_of_mem _ (List.mem_append_left _ hm))
      obtain ⟨call', er, entered, rows⟩ := exec_of_bump lawful statement he hbump
      have entered' := entered_of_inside (lawful _ _ hleft).2.1
      have bracketed : Bracketed d.history := fun e s hs => (lawful e s hs).2.1
      have same := after_unique bracketed entered
        (((List.suffix_cons _ _).trans hleft).subset (History.mem_own.mp entered'))
      cases same
      exact .inl ⟨er, rfl, rows⟩
    · exact .inr ⟨_, hm, hbump, ht⟩
  · rintro (⟨er, rfl, rows⟩ | ⟨e, hm, hbump, -⟩)
    · obtain ⟨r, hr⟩ := ((lawful _ _ hleft).2.2 rows).outside outside
      rcases List.mem_append.mp (History.mem_own.mp hr) with hm | hm
      · exact ⟨_, hm, by simp [isBump]⟩
      · rw [← History.mem_own, idle] at hm
        cases hm
    · exact ⟨e, hm, hbump⟩

end

/-- A DML outside transactions. -/
theorem dml_raises_generation :
    ∃ d : Sample.State Unit,
      ⟨(), .databaseExec (Sample.call 1 "UPDATE t SET x = 1"), .ok ⟨1⟩⟩ ∈ d.history ∧
      ((LocalBackend.healthy Sample.hash).abs (LocalBackend.withConfig {})).counter "ns" <
        ((LocalBackend.healthy Sample.hash).abs d.world.backend).counter "ns" := by
  let dml := Sample.call 1 "UPDATE t SET x = 1"
  obtain ⟨d, run, seen⟩ := play_observed (M := Sample.steps Unit Sample.interceptor)
    (A := Restriction.none) (c := Sample.start Sample.interceptor fun _ => Sample.dml dml)
    (List.replicate 8 ((), Sample.reading 7))
    (fun d => decide (d.history.head? = some
        ⟨(), .leave (.after dml (.exec (.ok ⟨1⟩))) (.ok .next), ()⟩) &&
      decide (bumps "ns" d.history.tail = 1) &&
      decide ((⟨(), .databaseExec dml, .ok ⟨1⟩⟩ : Event Unit (Op UInt64) Op.Res) ∈ d.history))
    (by decide +kernel)
  simp only [Bool.and_eq_true, decide_eq_true_eq] at seen
  obtain ⟨⟨head, bumped⟩, executed⟩ := seen
  obtain ⟨g, hg⟩ := List.head?_eq_some_iff.mp head
  rw [hg, List.tail_cons] at bumped
  have left : d.history = ⟨(), .leave (.after dml (.exec (.ok ⟨1⟩))) (.ok .next), ()⟩ :: g ++
      (Sample.start (T := Unit) Sample.interceptor fun _ => Sample.dml dml).history := by
    rw [hg]
    exact (List.append_nil _).symm
  have few : (((LocalBackend.healthy Sample.hash).abs (LocalBackend.withConfig {})).counter
      "ns").toNat + bumps "ns" g < 2 ^ 64 := by
    have fresh : ((LocalBackend.healthy Sample.hash).abs (LocalBackend.withConfig {})).counter "ns" = 0 :=
      rfl
    rw [fresh, bumped]
    decide
  have rises := generation_rises_iff (H := LocalBackend.healthy Sample.hash) .refl rfl run rfl
    (Sample.call_outside _ _) left few
  exact ⟨d, executed, rises.mpr (.inl ⟨⟨1⟩, rfl, by decide⟩)⟩

/-- A query that deletes rows leaves the generation as it is. -/
theorem deleting_query_keeps_generation :
    ∃ (d : Sample.State Unit) (g : History UInt64 Unit),
      Reaches (Sample.steps Unit Sample.interceptor) Restriction.none
        (Sample.start Sample.interceptor fun _ => Sample.select
          (Sample.call 1 "DELETE FROM t RETURNING id")) d ∧
      d.history = ⟨(), .leave (.after (Sample.call 1 "DELETE FROM t RETURNING id")
        (.query (.ok 7))) (.ok .next), ()⟩ :: g ∧
      ((LocalBackend.healthy Sample.hash).abs d.world.backend).counter "ns" =
        ((LocalBackend.healthy Sample.hash).abs (LocalBackend.withConfig {})).counter "ns" := by
  let deleting := Sample.call 1 "DELETE FROM t RETURNING id"
  obtain ⟨d, run, seen⟩ := play_observed (M := Sample.steps Unit Sample.interceptor)
    (A := Restriction.none) (c := Sample.start Sample.interceptor fun _ => Sample.select deleting)
    (List.replicate 5 ((), Sample.reading 7))
    (fun d => decide (d.history.head? = some
        ⟨(), .leave (.after deleting (.query (.ok 7))) (.ok .next), ()⟩) &&
      decide (((LocalBackend.healthy Sample.hash).abs d.world.backend).counter "ns" = 0))
    (by decide +kernel)
  simp only [Bool.and_eq_true, decide_eq_true_eq] at seen
  obtain ⟨g, hg⟩ := List.head?_eq_some_iff.mp seen.1
  exact ⟨d, g, run, hg, seen.2.trans rfl⟩

end RbatisCache.RbatisInterceptor
