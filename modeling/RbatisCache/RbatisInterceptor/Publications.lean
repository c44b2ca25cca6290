import RbatisCache.RbatisInterceptor.Transactions
import RbatisCache.RbatisInterceptor.Writes

/-! What a commit publishes. The flush bumps the marked namespaces before it writes, so the entries
of a transaction that has changed rows are of generations that nobody reads any more. -/
namespace RbatisCache.RbatisInterceptor
open Interleaving
open Interleaving.Prog (bind_eq perform_bind pure_eq)
open RbatisCacheInterceptor

section
variable {V : Type} (I : RbatisCacheInterceptor) (X : Externals Bytes) (C : ValueCodec V)

/-- A lookup has returned an envelope: the backend had it, and it was fresh. -/
structure Returned (key : CacheKey) (bytes : Bytes) (done : Done V) : Prop where
  got : ⟨.backend (.get key.digest), .ok (some bytes)⟩ ∈ done
  fresh : ∃ envelope now, CacheEnvelope.decode X bytes = .ok envelope ∧ ⟨.nowMs, now⟩ ∈ done ∧
    envelope.isFresh key.generation now = true

/-- All these namespaces have been bumped. -/
def Raised (nameSpaces : List String) (done : Done V) : Prop :=
  ∀ n ∈ nameSpaces, ∃ m, ⟨.backend (.bumpGeneration n), .ok m⟩ ∈ done

/-- The flush writes an entry of the buffer that it has taken away, and it has bumped what is marked
there in between. -/
inductive Published (txId : Int) (k : String) (bytes : Bytes) (done : Done V) : Prop
  | mk {buffer : TransactionalCacheBuffer V} {since rest : Done V} {key : CacheKey} {value : V}
      (removed : done = since ++ ⟨.removeBuffer txId, some buffer⟩ :: rest)
      (raised : Raised buffer.nameSpaces since) (holds : buffer.Holds key value)
      (digest_eq : key.digest = k) (encodes : Encodes X C key value bytes)

/-- What the listener has done before it writes. -/
def publishes (txId : Int) (done : Done V) : Op V → Prop
  | .backend (.put k bytes _) => Published X C txId k bytes done
  | _ => True

/-- Every task that handles a commit in defer mode publishes in this way. -/
def publishing (task : Task V) (done : Done V) (op : Op V) : Prop :=
  ∀ txId, task = .hook (.onEvent ⟨.commitSuccess, txId⟩) → I.policy.transactionMode = .defer →
    publishes X C txId done op

variable {I X C} {done : Done V} {txId : Int}

/-! ### The listener -/

private theorem publishes_flushNamespaces {nameSpaces : List String} :
    (flushNamespaces nameSpaces : Code V _).Obeys (publishes X C txId) (fun a after =>
      ∀ u, a = .ok u → ∃ since, after = since ++ done ∧ Raised nameSpaces since) done := by
  induction nameSpaces generalizing done with
  | nil => exact fun _ _ => ⟨[], rfl, fun _ hn => absurd hn List.not_mem_nil⟩
  | cons n rest ih =>
    simp only [flushNamespaces, bind_eq, perform_bind, pure_eq]
    refine ⟨trivial, fun result => ?_⟩
    cases result with
    | error e => exact fun u hu => by cases hu
    | ok m =>
      refine ih.mono fun a after h u hu => ?_
      obtain ⟨since, rfl, raised⟩ := h u hu
      refine ⟨since ++ [⟨.backend (.bumpGeneration n), .ok m⟩], by simp, fun k hk => ?_⟩
      rcases List.mem_cons.mp hk with rfl | hk
      · exact ⟨m, List.mem_append_right _ List.mem_cons_self⟩
      · obtain ⟨i, hi⟩ := raised k hk
        exact ⟨i, List.mem_append_left _ hi⟩

theorem Raised.cons {nameSpaces : List String} (h : Raised nameSpaces done)
    (e : Sigma (Op.Res (V := V))) : Raised nameSpaces (e :: done) := fun n hn =>
  have ⟨m, hm⟩ := h n hn
  ⟨m, List.mem_cons_of_mem _ hm⟩

private theorem publishes_flushEntries {buffer : TransactionalCacheBuffer V} {since rest : Done V}
    {entries : List (CacheKey × V)} (held : ∀ key v, (key, v) ∈ entries → buffer.Holds key v)
    (raised : Raised buffer.nameSpaces since) :
    (flushEntries X C buffer.ttl entries).Obeys (publishes X C txId) (fun _ _ => True)
      (since ++ ⟨.removeBuffer txId, some buffer⟩ :: rest) := by
  let Flushing (past : Done V) : Prop :=
    ∃ since, past = since ++ ⟨.removeBuffer txId, some buffer⟩ :: rest ∧ Raised buffer.nameSpaces since
  refine (obeys_flushes (K := Flushing) ?_ ?_ ?_ ⟨since, rfl, raised⟩).mono fun _ _ _ => trivial
  · rintro _ op r - ⟨since, rfl, raised⟩
    exact ⟨⟨op, r⟩ :: since, rfl, raised.cons _⟩
  · exact fun _ _ => trivial
  · rintro _ key v payload now bytes hm ⟨since, rfl, raised⟩ encoded sealed
    exact .mk (List.cons_append ..).symm (raised.cons ⟨.nowMs, now⟩) (held key v hm) rfl
      ⟨payload, buffer.ttl, now, encoded, sealed⟩

private theorem publishes_onEvent (mode : I.policy.transactionMode = .defer) :
    (onEvent I X C ⟨.commitSuccess, txId⟩).Obeys (publishes X C txId) (fun _ _ => True) done := by
  unfold onEvent
  simp only [mode, beq_self_eq_true, if_true, bind_eq, perform_bind, pure_eq]
  refine ⟨trivial, fun found => ?_⟩
  cases found with
  | none => trivial
  | some buffer =>
    refine Prog.Obeys.andThen (Q := fun _ _ => True) ?_ fun _ _ _ _ => trivial
    unfold flushTo
    simp only [bind_eq, pure_eq]
    refine publishes_flushNamespaces.andThen fun a bumped h _ => ?_
    cases a with
    | error e => trivial
    | ok u =>
      obtain ⟨since, rfl, raised⟩ := h u rfl
      exact publishes_flushEntries
        (fun _ _ hm => TransactionalCacheBuffer.holds_of_mem_entries hm) raised

private theorem publishing_program {task : Task V} :
    (task.program I X C).Obeys (publishing I X C task) (fun _ _ => True) [] := by
  by_cases ht : ∃ tx, task = .hook (.onEvent ⟨.commitSuccess, tx⟩) ∧
      I.policy.transactionMode = .defer
  · obtain ⟨tx, rfl, mode⟩ := ht
    have published : ((Task.hook (.onEvent ⟨.commitSuccess, tx⟩)).program I X C).Obeys
        (publishes X C tx) (fun _ _ => True) [] := by
      refine (obeys_invoke_of_hook trivial ?_).andThen fun _ _ _ _ => trivial
      simp only [runHook, bind_eq, pure_eq]
      exact (publishes_onEvent mode).andThen fun _ _ _ _ => trivial
    refine published.weaken fun done op h txId he _ => ?_
    cases he
    exact h
  · exact Prog.ensures_true.weaken fun done op _ txId he mode => absurd ⟨txId, he, mode⟩ ht

end

/-! ### The flush of a transaction that has changed rows -/

section
variable {B : CacheBackend} {V T : Type} [DecidableEq T] {I : RbatisCacheInterceptor}
variable {X : Externals Bytes} {C : ValueCodec V} {tasks : T → Task V} {state : B.State}
variable {A : Restriction T (Op V) Op.Res (Choice B V) (World B V)}
variable {d : Config T (Op V) Op.Res (World B V) (Reply V)}

/-- Transactions that come one event after the other, and few bumps. -/
def Committing : Restriction T (Op V) Op.Res (Choice B V) (World B V) :=
  fun t op ch w h => TxOrder t op ch w h ∧ FewBumps t op ch w h

omit [DecidableEq T] in
private theorem bumps_lt {h : History V T}
    (few : h.Always fun e s => ∀ n ∈ e.op.bumped, bumps n s + 1 < 2 ^ 64) (n : String) :
    bumps n h < 2 ^ 64 := by
  induction h with
  | nil => simp [bumps]
  | cons e h ih =>
    obtain ⟨now, before⟩ := History.always_cons.mp few
    by_cases hb : isBump n e = true
    · have room := now n (by rw [op_of_isBump hb]; rfl)
      rwa [bumps, List.countP_cons_of_pos hb]
    · rw [bumps, List.countP_cons_of_neg hb]
      exact ih before

/-- What a transaction has buffered when its buffer is taken away is of generations that have been
read by then. -/
theorem read_of_removed (run : Reaches (machine B V T I) A (initial I X C tasks state) d) {t : T}
    {tx : Int} {buffer : TransactionalCacheBuffer V} {o : History V T}
    (removed : ⟨t, .removeBuffer tx, some buffer⟩ :: o <:+ d.history) {key : CacheKey} {v : V}
    (holds : buffer.Holds key v) :
    ∃ u p, ⟨u, .backend (.generation I.nameSpace), .ok key.generation⟩ :: p <:+ o := by
  obtain ⟨lawful, filled⟩ := reaches_writes run
  obtain ⟨u, r, hm⟩ := (filled.removed _ _ removed _ _ _ rfl).put key v holds
  obtain ⟨q, hq⟩ := History.exists_suffix_of_mem hm
  have hqo : q <:+ o := (List.suffix_cons _ _).trans hq
  obtain ⟨⟨call, ⟨⟨rest, read⟩, -, -⟩, -⟩, -⟩ :=
    lawful _ _ (hq.trans ((List.suffix_cons _ _).trans removed))
  obtain ⟨p, hp⟩ := History.exists_suffix_of_mem_own (read.subset List.mem_cons_self)
  exact ⟨u, p, hp.trans hqo⟩

/-- Where a transaction has changed rows, its mark is in the buffer that is taken away. -/
theorem marked_of_removed (mode : I.policy.transactionMode = .defer)
    (run : Reaches (machine B V T I) TxOrder (initial I X C tasks state) d) {t : T} {tx : Int}
    (wrote : Wrote d.history tx) {buffer : TransactionalCacheBuffer V} {o : History V T}
    (removed : ⟨t, .removeBuffer tx, some buffer⟩ :: o <:+ d.history) :
    I.nameSpace ∈ buffer.nameSpaces := by
  obtain ⟨hc, tables⟩ := reaches_conducted run
  obtain ⟨type, ends, entered, -⟩ := hc.remover removed
  obtain ⟨p, hp⟩ := History.exists_suffix_of_mem entered
  have raised := hp.trans ((List.suffix_cons _ _).trans removed)
  obtain ⟨e, hm, marks⟩ := hc.marked_of_wrote mode ends raised wrote
  have marked : Marked o tx := ⟨e, ((List.suffix_cons _ _).trans hp).subset hm, marks⟩
  exact ((tables.removed _ _ removed _ _ _ rfl).2 buffer rfl I.nameSpace).mpr ⟨rfl, marked⟩

/-- What the flush of a transaction that has changed rows writes is of a generation that was read
before the flush bumped it. -/
theorem published_before_bump (mode : I.policy.transactionMode = .defer)
    (run : Reaches (machine B V T I) TxOrder (initial I X C tasks state) d) {t : T} {tx : Int}
    (task : tasks t = .hook (.onEvent ⟨.commitSuccess, tx⟩)) (wrote : Wrote d.history tx)
    {s : History V T} {k : String} {bytes : Bytes} {ttl : Duration} {r : Except CacheError Unit}
    (put : ⟨t, .backend (.put k bytes ttl), r⟩ :: s <:+ d.history) :
    ∃ key v m u p q, Encodes X C key v bytes ∧
      ⟨t, .backend (.bumpGeneration I.nameSpace), .ok m⟩ :: q <:+ s ∧
      ⟨u, .backend (.generation I.nameSpace), .ok key.generation⟩ :: p <:+ q := by
  have hs : s <:+ d.history := (List.suffix_cons _ _).trans put
  have published : Lawful (fun t => publishing I X C (tasks t)) d.history :=
    (run.lawful_of_obeys (fun _ => publishing_program) rfl).1
  obtain @⟨buffer, since, rest, key, v, removed, raised, holds, -, encodes⟩ :=
    published _ _ put tx task mode
  -- the buffer is taken away somewhere before `s`, with its mark, which has been bumped since
  obtain ⟨o, ho, -⟩ := History.exists_suffix_of_own removed
  obtain ⟨m, hm⟩ := raised I.nameSpace (marked_of_removed mode run wrote (ho.trans hs))
  obtain ⟨later, earlier, rfl⟩ := List.append_of_mem hm
  rw [List.append_assoc, List.cons_append] at removed
  obtain ⟨q, bump, hq⟩ := History.exists_suffix_of_own removed
  obtain ⟨o', ho', -⟩ := History.exists_suffix_of_own hq
  have hqs : q <:+ s := (List.suffix_cons _ _).trans bump
  obtain ⟨u, p, read⟩ := read_of_removed run (ho'.trans (hqs.trans hs)) holds
  exact ⟨key, v, m, u, p, q, encodes, bump, read.trans ((List.suffix_cons _ _).trans ho')⟩

/-- Of two reads with a bump in between the later one finds another generation. -/
theorem generation_moves (H : B.Healthy)
    (run : Reaches (machine B V T I) FewBumps (initial I X C tasks state) d) {t u : T} {n : String}
    {g g' : UInt64} {b : T} {r : (BackendOp.bumpGeneration n).Res} {p q s : History V T}
    (later : ⟨t, .backend (.generation n), .ok g'⟩ :: s <:+ d.history)
    (bump : ⟨b, .backend (.bumpGeneration n), r⟩ :: q <:+ s)
    (read : ⟨u, .backend (.generation n), .ok g⟩ :: p <:+ q) : g ≠ g' := by
  have numbered := (reaches_numbered H run).answered
  have few : d.history.Always fun e s => ∀ n ∈ e.op.bumped, bumps n s + 1 < 2 ^ 64 :=
    run.permitted (fun _ _ _ _ _ _ _ ha _ => ha) rfl
  have hs : s <:+ d.history := (List.suffix_cons _ _).trans later
  have hq : q <:+ d.history := (List.suffix_cons _ _).trans (bump.trans hs)
  have hp : bumps n p ≤ bumps n q := bumps_le_of_suffix ((List.suffix_cons _ _).trans read)
  have hb : bumps n q + 1 ≤ bumps n s := by
    have hle := bumps_le_of_suffix (n := n) bump
    rwa [bumps_cons_backend, Store.bumpCount, if_pos rfl] at hle
  have bound : bumps n s < 2 ^ 64 := bumps_lt (few.suffix hs) n
  rw [numbered _ _ later t n g' rfl, numbered _ _ (read.trans hq) u n g rfl]
  intro same
  have equal := congrArg UInt64.toNat ((UInt64.add_right_inj _).mp same)
  rw [UInt64.toNat_ofNat', UInt64.toNat_ofNat'] at equal
  omega

/-- In defer mode a transaction that has changed rows publishes nothing stale: no lookup that has
read the generation after the flush wrote an envelope returns this envelope. -/
theorem stale_reads_never_published (H : B.Healthy) (codec : X.RoundTrips)
    (mode : I.policy.transactionMode = .defer)
    (run : Reaches (machine B V T I) Committing (initial I X C tasks state) d) {t u : T} {tx : Int}
    (task : tasks t = .hook (.onEvent ⟨.commitSuccess, tx⟩)) (wrote : Wrote d.history tx)
    {k : String} {bytes : Bytes} {ttl : Duration} {r : Except CacheError Unit} {s : History V T}
    {key : CacheKey} (hs : s <:+ d.history)
    (after : s.Precedes ⟨t, .backend (.put k bytes ttl), r⟩
      ⟨u, .backend (.generation I.nameSpace), .ok key.generation⟩) :
    ¬ Returned X key bytes (History.own s u) := by
  rintro ⟨-, envelope, now, decoded, -, fresh⟩
  obtain ⟨x, read, hput⟩ := after
  obtain ⟨y, put⟩ := History.exists_suffix_of_mem hput
  have hx : x <:+ d.history := (List.suffix_cons _ _).trans (read.trans hs)
  obtain ⟨origin, v, m, w, p, q, encodes, bump, earlier⟩ :=
    published_before_bump mode (run.weaken fun _ _ _ _ _ ha => ha.1) task wrote (put.trans hx)
  have moved : origin.generation ≠ key.generation :=
    generation_moves H (run.weaken fun _ _ _ _ _ ha => ha.2) (read.trans hs)
      (bump.trans ((List.suffix_cons _ _).trans put)) earlier
  obtain ⟨payload, ttl', stored, -, encoded⟩ := encodes
  rw [CacheEnvelope.decode_encode codec encoded] at decoded
  cases decoded
  exact moved (CacheEnvelope.isFresh_generation fresh)

end

/-- A transaction that reads and then writes, and a query that comes later. -/
def Sample.readThenWrite : Fin 5 → Task UInt64
  | 0 => Sample.event .begin 9
  | 1 => Sample.select (Sample.txCall 9 "SELECT 1")
  | 2 => Sample.dml (Sample.txCall 9 "UPDATE t SET x = 1")
  | 3 => Sample.event .commitSuccess 9
  | 4 => Sample.select (Sample.call 1 "SELECT 1")

instance {V T : Type} [DecidableEq V] [DecidableEq T] [Fintype T] {B : CacheBackend} (t : T) (op : Op V)
    (ch : Choice B V) (w : World B V) (h : History V T) : Decidable (Committing t op ch w h) :=
  inferInstanceAs (Decidable (TxOrder t op ch w h ∧ FewBumps t op ch w h))

/-- The result from before the write gets into the backend, and the later query does not see it. -/
theorem flushed_read_not_returned :
    ∃ (d : Sample.State (Fin 5)) (k : String) (bytes : Bytes) (ttl : Duration)
      (r : Except CacheError Unit) (key : CacheKey),
      d.history.Precedes ⟨3, .backend (.put k bytes ttl), r⟩
        ⟨4, .backend (.generation "ns"), .ok key.generation⟩ ∧
      ⟨4, .backend (.get key.digest), .ok none⟩ ∈ d.history ∧
      ¬ Returned Sample.externals key bytes (d.history.own 4) := by
  let dml := Sample.txCall 9 "UPDATE t SET x = 1"
  let input := Sample.deferring.buildKeyInput Sample.codec (Sample.call 1 "SELECT 1")
  let wrote : Event (Fin 5) (Op UInt64) Op.Res := ⟨2, .enter (.after dml (.exec (.ok ⟨1⟩))), ()⟩
  let read : Event (Fin 5) (Op UInt64) Op.Res := ⟨4, .backend (.generation "ns"), .ok 1⟩
  obtain ⟨d, run, seen⟩ := play_observed (M := Sample.steps (Fin 5) Sample.deferring)
    (A := Committing) (c := Sample.start Sample.deferring Sample.readThenWrite)
    ((List.replicate 3 (0 : Fin 5) ++ List.replicate 19 1 ++ List.replicate 7 2 ++
      List.replicate 6 3 ++ List.replicate 4 4).map (·, Sample.reading 7))
    (fun d => decide (wrote ∈ d.history) &&
      (d.history.any fun e => decide (e.task = 3) && e.op.isPut && decide (d.history.Precedes e read)) &&
      (CacheKey.build Sample.externals input 1).toOption.any fun key =>
        decide ((⟨4, .backend (.get key.digest), .ok none⟩ :
          Event (Fin 5) (Op UInt64) Op.Res) ∈ d.history)) (by decide +kernel)
  simp only [Bool.and_eq_true, decide_eq_true_eq] at seen
  obtain ⟨⟨changed, put⟩, looked⟩ := seen
  obtain ⟨⟨t, op, r⟩, hm, he⟩ := List.any_eq_true.mp put
  simp only [Bool.and_eq_true, decide_eq_true_eq] at he
  obtain ⟨⟨rfl, hop⟩, after⟩ := he
  cases built : CacheKey.build Sample.externals input 1 with
  | error e =>
    rw [built] at looked
    cases looked
  | ok key =>
    rw [built] at looked
    have absent := of_decide_eq_true looked
    obtain generation : key.generation = 1 := CacheKey.build_generation built
    cases op with
    | backend o =>
      cases o with
      | put k bytes ttl =>
        have order : d.history.Precedes ⟨3, .backend (.put k bytes ttl), r⟩
            ⟨4, .backend (.generation "ns"), .ok key.generation⟩ := by
          rw [generation]
          exact after
        have commit : Sample.readThenWrite 3 = .hook (.onEvent ⟨.commitSuccess, 9⟩) := rfl
        have unseen := stale_reads_never_published (LocalBackend.healthy Sample.hash)
          Sample.externals_roundTrips rfl run commit
          ⟨2, dml, ⟨1⟩, changed, Sample.txCall_inside _ _, rfl, by decide⟩ (List.suffix_refl _) order
        exact ⟨d, k, bytes, ttl, r, key, order, absent, unseen⟩
      | _ => cases hop
    | _ => cases hop

end RbatisCache.RbatisInterceptor
