import RbatisCache.RbatisInterceptor.Layers
import RbatisCache.RbatisInterceptor.Sample

/-! Bypass mode. The mode is consulted by `before` only, so a transaction stays out of the caches
exactly as long as its queries come to nothing in `after` for another reason. -/
namespace RbatisCache.RbatisInterceptor
open Interleaving
open RbatisCacheInterceptor

section
variable {V T : Type}

/-- A query in a transaction, or one of its two hook calls. -/
def Task.TxQuery (task : Task V) : Prop :=
  ∃ call, call.rb.isInTransaction = true ∧ (task = .statement (.query call) ∨
    task = .hook (.before call (.query ())) ∨ ∃ result, task = .hook (.after call (.query result)))

/-- The generation reads of queries in transactions that the database has answered fail in `after`. -/
def TxReadsFail {B : CacheBackend} : Restriction T (Op V) Op.Res (Choice B V) (World B V) :=
  fun t op ch w h => match op with
    | .backend (.generation n) => ∀ call v,
        ⟨t, .enter (.after call (.query (.ok v))), ()⟩ ∈ h → call.rb.isInTransaction = true →
          ∃ e, (B.perform (.generation n) ch.backend w.backend).1 = .error e
    | _ => True

variable [DecidableEq T] {B : CacheBackend} {I : RbatisCacheInterceptor} {X : Externals Bytes}
variable {C : ValueCodec V} {H : B.Honest} {tasks : T → Task V} {state : B.State}
variable {d : Config T (Op V) Op.Res (World B V) (Reply V)}

private theorem txReadsFail_permitted
    (run : Reaches (machine B V T I) TxReadsFail (initial I X C tasks state) d) :
    d.history.Always fun event s => ∀ t n g, event = ⟨t, .backend (.generation n), .ok g⟩ →
      ∀ call v, ⟨t, .enter (.after call (.query (.ok v))), ()⟩ ∈ s →
        call.rb.isInTransaction = false := by
  refine run.permitted (fun t op ch w h r u ha hm t' n g he call v hentered => ?_) rfl
  cases he
  by_contra htx
  obtain ⟨e, herror⟩ := ha call v hentered (by simpa using htx)
  have hok : (B.perform (.generation n) ch.backend w.backend).1 = .ok g :=
    congrArg Prod.fst (Option.some.inj hm)
  rw [hok] at herror
  cases herror

/-- No query in a transaction resolves a key for its result in `after`. -/
theorem outside_of_resolved
    (run : Reaches (machine B V T I) TxReadsFail (initial I X C tasks state) d)
    {s : History V T} (hs : s <:+ d.history) {t : T} {call : Call V} {v : V}
    {key : CacheKey} (hr : Resolved I X C call (.ok v) key (s.own t)) :
    call.rb.isInTransaction = false := by
  obtain ⟨⟨rest, l, hl⟩, -, -⟩ := hr
  obtain ⟨q, hq, ho⟩ := History.exists_suffix_of_own hl.symm
  have hentered : Entered (.after call (.query (.ok v))) (History.own q t) := by
    rw [ho]
    exact List.mem_cons_self
  exact txReadsFail_permitted run _ _ (hq.trans hs) t _ _ rfl call v (History.mem_own.mp hentered)

/-- The query has not failed in the database and been told a generation after that. -/
def Unfailed (I : RbatisCacheInterceptor) (X : Externals Bytes) (C : ValueCodec V) (done : Done V) :
    Prop :=
  ∀ call e key, ¬ Resolved I X C call (.error e) key done

/-- What a query in a transaction is never in a position to do. -/
structure KeptOut (I : RbatisCacheInterceptor) (X : Externals Bytes) (C : ValueCodec V)
    (done : Done V) : Prop where
  looksUp : ∀ call key, ¬ LooksUp I X C call key done
  resolved : ∀ call v key, ¬ Resolved I X C call (.ok v) key done
  dml : ∀ call, ¬ Dml call done
  event : ∀ event, ¬ Entered (.onEvent event) done
  buffer : ∀ txId buffer, ⟨.removeBuffer txId, some buffer⟩ ∉ done

theorem Task.TxQuery.not_enters_exec {task : Task V} (h : task.TxQuery) {call : Call V}
    {result : Except String ExecResult} {done : Done V} :
    ¬ task.Enters (.after call (.exec result)) done := by
  obtain ⟨c, -, rfl | rfl | ⟨r, rfl⟩⟩ := h
  · rintro (⟨h, -⟩ | ⟨_, _, h, -⟩)
    · cases h
    · cases h
  · rintro ⟨h, -⟩
    cases h
  · rintro ⟨h, -⟩
    cases h

theorem Task.TxQuery.call {task : Task V} (h : task.TxQuery) :
    ∃ call, task.call = some call ∧ call.rb.isInTransaction = true := by
  obtain ⟨c, hc, rfl | rfl | ⟨r, rfl⟩⟩ := h
  · exact ⟨c, rfl, hc⟩
  · exact ⟨c, rfl, hc⟩
  · exact ⟨c, rfl, hc⟩

private theorem keptOut_of_txQuery (mode : I.policy.transactionMode = .bypass)
    (run : Reaches (machine B V T I) TxReadsFail (initial I X C tasks state) d)
    (hl : Lawful (fun t => rule I X C (tasks t)) d.history) {t : T} (ht : (tasks t).TxQuery) :
    KeptOut I X C (d.history.own t) := by
  obtain ⟨c, hc, htx⟩ := ht.call
  have same {hook : Hook V} {call : Call V} (he : Entered hook (d.history.own t))
      (hh : hook.call = some call) : call = c := by
    have h := call_of_entered hl he
    rw [hh, hc] at h
    exact Option.some.inj h
  have noEvent (event : TransactionEvent) : ¬ Entered (.onEvent event) (d.history.own t) := by
    intro he
    have h := call_of_entered hl he
    rw [hc] at h
    cases h
  refine ⟨fun call key hk => ?_, fun call v key hr => ?_, fun call hd => ?_, noEvent, ?_⟩
  · obtain rfl := same hk.entered rfl
    exact hk.permitted ⟨htx, mode⟩
  · obtain rfl := same hr.entered rfl
    rw [outside_of_resolved run (List.suffix_refl _) hr] at htx
    cases htx
  · obtain ⟨er, he, -⟩ := hd
    obtain ⟨s, hs⟩ := History.exists_suffix_of_mem_own he
    exact ht.not_enters_exec (hl _ _ hs)
  · intro txId buffer hm
    obtain ⟨s, hs⟩ := History.exists_suffix_of_mem_own hm
    obtain ⟨event, he, -⟩ := hl _ _ hs
    exact noEvent event (he.grow (History.own_suffix ((List.suffix_cons _ _).trans hs)))

omit [DecidableEq T] in
/-- A task that is kept out changes none of the caches; all it asks the backend for is a
generation. A load it ends only for a query that has failed. -/
theorem KeptOut.frame {t : T} {op : Op V} {r : op.Res} {ch : Choice B V} {w u : World B V}
    {done : Done V} (hk : KeptOut I X C done) (hr : rule I X C (tasks t) done op)
    (hm : (machine B V T I).perform t op ch w = some (r, u)) :
    (u.backend = w.backend ∨ ∃ n ch, u.backend = (B.perform (.generation n) ch w.backend).2) ∧
      u.l1 = w.l1 ∧ u.txBuffers = w.txBuffers ∧
      (Unfailed I X C done → u.singleflight = w.singleflight) := by
  have nothing (h : (∃ call key, LooksUp I X C call key done) ∨
      ∃ call v key, Resolved I X C call (.ok v) key done) : False := by
    rcases h with ⟨call, key, h⟩ | ⟨call, v, key, h⟩
    · exact hk.looksUp call key h
    · exact hk.resolved call v key h
  have failed (h : ∃ call result key, Resolved I X C call result key done) : ¬ Unfailed I X C done := by
    obtain ⟨call, result, key, h⟩ := h
    cases result with
    | error e => exact fun unfailed => unfailed call e key h
    | ok v => exact (hk.resolved call v key h).elim
  match op with
  | .backend (.generation n) =>
    obtain ⟨-, rfl⟩ := Prod.mk.inj (Option.some.inj hm)
    exact ⟨.inr ⟨n, ch.backend, rfl⟩, rfl, rfl, fun _ => rfl⟩
  | .backend (.get k) =>
    obtain ⟨call, key, h, -⟩ := hr
    exact (nothing (.inl ⟨call, key, h⟩)).elim
  | .backend (.put k bytes ttl) =>
    cases hr with
    | loaded resolved => exact (hk.resolved _ _ _ resolved).elim
    | flushed removed => exact (hk.buffer _ _ removed).elim
  | .backend (.bumpGeneration n) =>
    cases hr with
    | exec dml => exact (hk.dml _ dml).elim
    | commit entered => exact (hk.event _ entered).elim
  | .l1Replace e digest entry => exact (nothing (Fills.keyed hr)).elim
  | .l1Insert e digest entry => exact (nothing (Fills.keyed hr)).elim
  | .l1Remove e => exact (nothing hr).elim
  | .l1Clear e =>
    obtain ⟨call, h, -⟩ := hr
    exact (hk.dml call h).elim
  | .tryBeginLoad digest => exact (nothing (.inl hr)).elim
  | .finishLoad digest success =>
    have h := failed hr
    simp only [machine] at hm
    cases hm
    exact ⟨.inl rfl, rfl, rfl, fun unfailed => (h unfailed).elim⟩
  | .removeLoad digest =>
    have h := failed hr
    cases hm
    exact ⟨.inl rfl, rfl, rfl, fun unfailed => (h unfailed).elim⟩
  | .bufferPut txId key v =>
    obtain ⟨call, h, -⟩ := hr
    exact (hk.resolved call _ key h).elim
  | .clearNamespace txId n =>
    obtain ⟨call, h, -⟩ := hr
    exact (hk.dml call h).elim
  | .insertBuffer txId => exact (hk.event _ hr.2).elim
  | .removeBuffer txId =>
    obtain ⟨event, h, -⟩ := hr
    exact (hk.event event h).elim
  | .awaitNotified load seen =>
    simp only [machine] at hm
    split at hm
    · cases hm
      exact ⟨.inl rfl, rfl, rfl, fun _ => rfl⟩
    · cases hm
  | .enter _ | .leave _ _ | .nowMs | .instantNow | .record _ | .l1Lookup _ | .l1Oldest | .loading _
  | .notified _ | .pendingGet _ _ | .databaseQuery _ | .databaseExec _ =>
    cases hm
    exact ⟨.inl rfl, rfl, rfl, fun _ => rfl⟩

/-- In bypass mode, in every run in which the generation reads of the queries in transactions fail
in `after` when the database has answered: no step of such a query changes a cache, unless the backend
changes by itself when it is asked for a generation, and none ends a load unless the query has failed in
the database; and what a `before` returns was handed to an `after`, and read from the database, outside of
transactions. -/
theorem bypass_keeps_transactions_out (mode : I.policy.transactionMode = .bypass)
    (codec : X.RoundTrips) (empty : H.abs state = .empty)
    (run : Reaches (machine B V T I) TxReadsFail (initial I X C tasks state) d) :
    (∀ e t op r, Step (machine B V T I) TxReadsFail d e → e.history = ⟨t, op, r⟩ :: d.history →
      (tasks t).TxQuery →
        (e.world.backend = d.world.backend ∨
          ∃ n ch, e.world.backend = (B.perform (.generation n) ch d.world.backend).2) ∧
        (H.abs d.world.backend).Shrinks (H.abs e.world.backend) ∧ e.world.l1 = d.world.l1 ∧
        e.world.txBuffers = d.world.txBuffers ∧
        (Unfailed I X C (d.history.own t) → e.world.singleflight = d.world.singleflight)) ∧
    ∀ t call v s,
      ⟨t, .leave (.before call (.query ())) (.ok (.return v)), ()⟩ :: s <:+ d.history →
      ∃ t' call' v₀, ⟨t', .enter (.after call' (.query (.ok v₀))), ()⟩ ∈ s ∧
        call'.rb.isInTransaction = false ∧ Yields C v₀ v ∧
        ∀ st, tasks t' = .statement st → ⟨t', .databaseQuery call', .ok v₀⟩ ∈ s := by
  obtain ⟨hl, hi, hobeys⟩ := run.lawful (layers_preserved (filedSlot_kept codec))
    (obeys_initial tasks state) rfl (layers_initial empty)
  constructor
  · intro e t op r hstep he ht
    obtain ⟨ch, next, hprogram, -, hm⟩ := hstep.performed he
    obtain ⟨hb, hframe⟩ := (keptOut_of_txQuery mode run hl ht).frame (hobeys.allowed hprogram) hm
    refine ⟨hb, ?_, hframe⟩
    rcases hb with hb | ⟨n, c, hb⟩
    · rw [hb]
      exact Store.Shrinks.refl _
    · rw [hb]
      rcases H.answers (.generation n) c d.world.backend with hs | hs
      · exact hs.2
      · exact hs.2
  · intro t call v s answered
    have hs : s <:+ d.history := (List.suffix_cons _ _).trans answered
    obtain ⟨t', call', key, v₀, hf, hy⟩ := hi.answered codec hs (hl _ _ answered)
    refine ⟨t', call', v₀, hf.handed, outside_of_resolved run hs hf, hy, fun st hst => ?_⟩
    obtain ⟨q, hq⟩ := History.exists_suffix_of_mem hf.handed
    obtain ⟨rest, hrest⟩ := read_of_entered hl hst (hq.trans hs)
    have hread : ⟨.databaseQuery call', .ok v₀⟩ ∈ History.own q t' := by
      rw [hrest]
      exact List.mem_cons_self
    exact ((List.suffix_cons _ _).trans hq).subset (History.mem_own.mp hread)

end
/-- After a query of a transaction, the backend is down when it is asked for a generation. -/
def down {T : Type} : Restriction T (Op UInt64) Op.Res (Choice Sample.faulty UInt64)
    (World Sample.faulty UInt64) := fun t op ch _ h => match op with
  | .backend (.generation _) =>
    ∀ e ∈ h, e.task = t → ∀ call ∈ e.op.handedOver, call.rb.isInTransaction = true →
      ch.backend.isSome = true
  | _ => True

instance {T : Type} [DecidableEq T] (t : T) (op : Op UInt64)
    (ch : Choice Sample.faulty UInt64) (w : World Sample.faulty UInt64)
    (h : History UInt64 T) : Decidable (down t op ch w h) := by
  unfold down
  split <;> infer_instance

private theorem txReadsFail_of_down {T : Type} {t : T} {op : Op UInt64}
    {ch : Choice Sample.faulty UInt64} {w : World Sample.faulty UInt64}
    {h : History UInt64 T} (hd : down t op ch w h) : TxReadsFail t op ch w h := by
  cases op with
  | backend op =>
    cases op with
    | generation n =>
      intro call v hentered htx
      obtain ⟨e, fault⟩ := Option.isSome_iff_exists.mp (hd _ hentered rfl call rfl htx)
      refine ⟨e, ?_⟩
      rw [fault]
      rfl
    | _ => trivial
  | _ => trivial

/-- A transaction runs a query that can be cached and gets 6; the backend is down when its `after` asks for
the generation. Two connections run the same query, and the second one gets what the first one has read. -/
theorem transaction_kept_out :
    ∃ (d : Sample.FaultyState (Fin 3)) (s : History UInt64 (Fin 3)),
      ⟨0, .databaseQuery (Sample.txCall 9 "SELECT 1"), .ok 6⟩ ∈ s ∧
      (∃ e, ⟨0, .backend (.generation "ns"), .error e⟩ ∈ s) ∧
      ⟨2, .leave (.before (Sample.call 2 "SELECT 1") (.query ())) (.ok (.return 7)), ()⟩ :: s <:+
        d.history ∧
      ∃ t' call' v₀, ⟨t', .enter (.after call' (.query (.ok v₀))), ()⟩ ∈ s ∧
        call'.rb.isInTransaction = false ∧ Yields Sample.codec v₀ 7 := by
  let tasks : Fin 3 → Task UInt64 := fun t =>
    Sample.select (if t = 0 then Sample.txCall 9 "SELECT 1" else Sample.call t.val "SELECT 1")
  let start : Sample.FaultyState (Fin 3) :=
    initial Sample.interceptor Sample.externals Sample.codec tasks Store.empty
  obtain ⟨d, run, seen⟩ := play_observed
    (M := machine Sample.faulty UInt64 (Fin 3) Sample.interceptor) (A := down)
    (c := start)
    (List.replicate 4 (0, Sample.faulting none 6) ++
      List.replicate 2 (0, Sample.faulting (some (.backend "down")) 6) ++
      List.replicate 19 (1, Sample.faulting none 7) ++ List.replicate 11 (2, Sample.faulting none 8))
    (fun d => decide (d.history.head? = some
        ⟨2, .leave (.before (Sample.call 2 "SELECT 1") (.query ())) (.ok (.return 7)), ()⟩) &&
      decide (⟨0, .databaseQuery (Sample.txCall 9 "SELECT 1"), .ok 6⟩ ∈ d.history.tail) &&
      decide (⟨0, .backend (.generation "ns"), .error (.backend "down")⟩ ∈ d.history.tail))
    (by decide +kernel)
  simp only [Bool.and_eq_true, decide_eq_true_eq] at seen
  obtain ⟨⟨answered, queried⟩, failed⟩ := seen
  have suffix := History.suffix_of_head? answered
  obtain ⟨t', call', v₀, handed, tx, yields, -⟩ :=
    (bypass_keeps_transactions_out (H := Sample.faultyHonest) rfl
      Sample.externals_roundTrips rfl
      (run.weaken fun _ _ _ _ _ => txReadsFail_of_down)).2 2 _ 7 _ suffix
  exact ⟨d, _, queried, ⟨_, failed⟩, suffix, t', call', v₀, handed, tx, yields⟩

/-- A query in a transaction that is rolled back answers another connection afterwards. -/
theorem rolled_back_read_answers :
    ∃ (d : Sample.State (Fin 3)) (s : History UInt64 (Fin 3)),
      Reaches (Sample.steps (Fin 3) Sample.interceptor) Restriction.none
        (Sample.start Sample.interceptor fun t =>
          if t = 0 then Sample.select (Sample.txCall 9 "SELECT 1")
          else if t = 1 then Sample.event .rollback 9
          else Sample.select (Sample.call 2 "SELECT 1")) d ∧
      ⟨2, .leave (.before (Sample.call 2 "SELECT 1") (.query ())) (.ok (.return 7)), ()⟩ :: s <:+
        d.history ∧
      s.Precedes ⟨1, .leave (.onEvent ⟨.rollback, 9⟩) (.ok .next), ()⟩
        ⟨2, .enter (.before (Sample.call 2 "SELECT 1") (.query ())), ()⟩ ∧
      (∀ t call r, ⟨t, .databaseQuery call, r⟩ ∈ s → call = Sample.txCall 9 "SELECT 1") ∧
      (Sample.txCall 9 "SELECT 1").rb.isInTransaction = true := by
  obtain ⟨d, run, seen⟩ := play_observed (M := Sample.steps (Fin 3) Sample.interceptor)
    (A := Restriction.none)
    (c := Sample.start Sample.interceptor fun t =>
      if t = 0 then Sample.select (Sample.txCall 9 "SELECT 1")
      else if t = 1 then Sample.event .rollback 9
      else Sample.select (Sample.call 2 "SELECT 1"))
    (List.replicate 13 (0, Sample.reading 7) ++ List.replicate 3 (1, Sample.reading 8) ++
      List.replicate 11 (2, Sample.reading 8))
    (fun d => decide (d.history.head? = some
        ⟨2, .leave (.before (Sample.call 2 "SELECT 1") (.query ())) (.ok (.return 7)), ()⟩) &&
      decide (History.Precedes d.history.tail ⟨1, .leave (.onEvent ⟨.rollback, 9⟩) (.ok .next), ()⟩
        ⟨2, .enter (.before (Sample.call 2 "SELECT 1") (.query ())), ()⟩) &&
      d.history.all fun e => match e.op with
        | .databaseQuery call => decide (call = Sample.txCall 9 "SELECT 1")
        | _ => true)
    (by decide +kernel)
  simp only [Bool.and_eq_true, decide_eq_true_eq] at seen
  obtain ⟨⟨head, order⟩, only⟩ := seen
  obtain ⟨s, hs⟩ := List.head?_eq_some_iff.mp head
  rw [hs, List.tail_cons] at order
  refine ⟨d, s, run, ?_, order, fun t call r hr => ?_, by decide⟩
  · rw [hs]
  · rw [hs] at only
    have hall := List.all_eq_true.mp only _ (List.mem_cons_of_mem _ hr)
    exact of_decide_eq_true hall

end RbatisCache.RbatisInterceptor
