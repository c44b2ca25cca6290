import Mathlib.Data.Fintype.Basic
import RbatisCache.RbatisInterceptor.Generations
import RbatisCache.RbatisInterceptor.Sample

/-! Coherence of the first-level cache with DMLs, when hook calls do not overlap. A DML clears the
slot of its own executor; the slots of all others live on. -/
namespace RbatisCache.RbatisInterceptor
open Interleaving
open RbatisCacheInterceptor

section
variable {V T : Type}

def Op.cleared : Op V → Option Int
  | .l1Clear e => some e
  | _ => none

/-- A bump by the DML of another executor. -/
def ForeignBump [DecidableEq T] (n : String) (e : Int) (b : Event T (Op V) Op.Res)
    (s : History V T) : Prop :=
  isBump n b = true ∧ ∃ x ∈ s, x.task = b.task ∧ ∃ e' ∈ x.op.cleared, e' ≠ e

/-- A DML of another executor has bumped since the slot was filled. -/
def OutdatedSlot [DecidableEq T] (n : String) (e : Int) : History V T → Prop
  | [] => False
  | event :: h => fillOf e event = none ∧ (ForeignBump n e event h ∨ OutdatedSlot n e h)

instance [DecidableEq T] (n : String) (e : Int) (b : Event T (Op V) Op.Res) (s : History V T) :
    Decidable (ForeignBump n e b s) :=
  inferInstanceAs (Decidable (isBump n b = true ∧
    ∃ x ∈ s, x.task = b.task ∧ ∃ e' ∈ x.op.cleared, e' ≠ e))

instance instDecidableOutdatedSlot [DecidableEq T] (n : String) (e : Int) :
    ∀ h : History V T, Decidable (OutdatedSlot n e h)
  | [] => .isFalse id
  | event :: h =>
    have := instDecidableOutdatedSlot n e h
    inferInstanceAs (Decidable (fillOf e event = none ∧
      (ForeignBump n e event h ∨ OutdatedSlot n e h)))

/-- No live slot is looked into that is outdated. -/
def FreshSlots [DecidableEq T] (n : String) {B : CacheBackend} :
    Restriction T (Op V) Op.Res (Choice B V) (World B V) :=
  fun _ op ch w h => ∀ e ∈ op.lookedUp, (w.l1.lookup e ch.instant).isLive = true →
    ¬ OutdatedSlot n e h

/-- Hook calls do not overlap. -/
def NonOverlapping [DecidableEq T] {B : CacheBackend} :
    Restriction T (Op V) Op.Res (Choice B V) (World B V) :=
  fun _ op _ _ h => op.isEnter = true → ∀ t, ¬ (phase (History.own h t)).Inside

instance [DecidableEq T] [Fintype T] {B : CacheBackend} (t : T) (op : Op V) (ch : Choice B V)
    (w : World B V) (h : History V T) : Decidable (NonOverlapping t op ch w h) :=
  inferInstanceAs (Decidable (op.isEnter = true → ∀ t, ¬ (phase (History.own h t)).Inside))

/-- Complete hook calls, one after the other, that do not use outdated slots. -/
def Coherent [DecidableEq T] (n : String) {B : CacheBackend} :
    Restriction T (Op V) Op.Res (Choice B V) (World B V) :=
  fun t op ch w h => NonOverlapping t op ch w h ∧ FewBumps t op ch w h ∧ FreshSlots n t op ch w h

instance [DecidableEq T] [Fintype T] (n : String) {B : CacheBackend} (t : T) (op : Op V)
    (ch : Choice B V) (w : World B V) (h : History V T) : Decidable (Coherent n t op ch w h) :=
  inferInstanceAs (Decidable (NonOverlapping t op ch w h ∧ FewBumps t op ch w h ∧
    ∀ e ∈ op.lookedUp, (w.l1.lookup e ch.instant).isLive = true → ¬ OutdatedSlot n e h))

variable [DecidableEq T] (I : RbatisCacheInterceptor) (X : Externals Bytes) (C : ValueCodec V)

/-- What the histories of such runs are like. -/
structure Orderly (h : History V T) : Prop where
  bracketed : Bracketed h
  alone : Alone h
  counted : h.Always fun e s => ∀ t n g, e = ⟨t, .backend (.generation n), .ok g⟩ →
    g.toNat = bumps n s

/-- The value was handed to an `after` that was entered after an event. -/
def Since (b : Event T (Op V) Op.Res) (v : V) (h : History V T) : Prop :=
  ∃ t call v₀, h.Precedes b ⟨t, .enter (.after call (.query (.ok v₀))), ()⟩ ∧ Yields C v₀ v

/-- Whenever the slot was cleared, it has been filled since. -/
def Refilled (e : Int) (h : History V T) : Prop :=
  ∀ c q, c :: q <:+ h → c.op = .l1Clear e → ∃ f s, f :: s <:+ h ∧ fillOf e f ≠ none ∧ c :: q <:+ s

/-- The slot is outdated, or what it holds was handed over since the last bump. -/
def CurrentSlot (e : Int) (v : V) (h : History V T) : Prop :=
  Orderly h → Refilled e h ∧ ∀ b ∈ h, isBump I.nameSpace b = true →
    OutdatedSlot I.nameSpace e h ∨ Since C b v h

variable {I X C} {h s : History V T} {tasks : T → Task V} {t : T} {v : V}

theorem Orderly.suffix (ho : Orderly h) (hs : s <:+ h) : Orderly s :=
  ⟨ho.bracketed.suffix hs, ho.alone.suffix hs, ho.counted.suffix hs⟩

omit [DecidableEq T] in
theorem Since.suffix {b : Event T (Op V) Op.Res} (hv : Since C b v s) (hs : s <:+ h) :
    Since C b v h := by
  obtain ⟨t, call, v₀, hp, hy⟩ := hv
  exact ⟨t, call, v₀, hp.suffix hs, hy⟩

theorem Orderly.inside {op : Op V} {r : op.Res} {q : History V T} (ho : Orderly h)
    (hq : ⟨t, op, r⟩ :: q <:+ h) (hop : op.Inner) :
    ∃ hook, phase (History.own q t) = .inside hook :=
  (bracket_of_inner hop).mp (ho.bracketed _ _ hq)

/-- No hook call is about a transaction. -/
def Plain (tasks : T → Task V) : Prop :=
  ∀ t, ∃ call, (tasks t).call = some call ∧ call.rb.isInTransaction = false

/-- Who bumps is in the `after` of a DML and has cleared its slot. -/
theorem dml_of_bumps (plain : Plain tasks) (hl : Lawful (fun t => rule I X C (tasks t)) h)
    {n : String} (hr : Bumps I n (h.own t)) :
    ∃ call, Dml call (h.own t) ∧ ⟨.l1Clear call.rb.id, ()⟩ ∈ h.own t := by
  cases hr with
  | exec dml outside cleared own => exact ⟨_, dml, cleared⟩
  | commit entered =>
    obtain ⟨call, hc, -⟩ := plain t
    have he := call_of_entered hl entered
    rw [hc] at he
    cases he

/-- A bump that happened before a moment inside of a query's hook call happened before that call
was entered. -/
theorem bump_before_entered (plain : Plain tasks)
    (hl : Lawful (fun t => rule I X C (tasks t)) h) (ho : Orderly h) {hook hook' : Hook V}
    {p : History V T} (he : ⟨t, .enter hook, ()⟩ :: p <:+ h) (query : hook.isQuery = true)
    (hin : phase (h.own t) = .inside hook')
    (hr : (Phase.inside hook').rank = (Phase.inside hook).rank) {n : String}
    {b : Event T (Op V) Op.Res} (hb : b ∈ h) (bump : isBump n b = true) : b ∈ p := by
  obtain ⟨q, hq⟩ := History.exists_suffix_of_mem hb
  obtain ⟨w, op, r⟩ := b
  obtain rfl : op = _ := op_of_isBump bump
  have hne : w ≠ t := by
    rintro rfl
    have hlq := hl.suffix ((List.suffix_cons _ _).trans hq)
    obtain ⟨call, ⟨er, hentered, -⟩, -⟩ := dml_of_bumps plain hlq (hl _ _ hq)
    have hexec := isQuery_of_entered hlq hentered
    have hquery : Entered hook (h.own w) := History.mem_own.mpr (he.subset List.mem_cons_self)
    rw [← isQuery_of_entered hl hquery, query] at hexec
    cases hexec
  exact (suffix_of_inside ho.bracketed ho.alone he hin hr hq trivial hne).subset List.mem_cons_self

/-- A value of the current generation was handed over after all bumps before the lookup. -/
theorem Served.since (plain : Plain tasks) (hl : Lawful (fun t => rule I X C (tasks t)) h)
    (ho : Orderly h) {call : Call V} {key : CacheKey} {q p : History V T}
    (looks : LooksUp I X C call key (h.own t)) (hs : Served I X C q key v) (hq : q <:+ h)
    (he : ⟨t, .enter (.before call (.query ())), ()⟩ :: p <:+ h) {b : Event T (Op V) Op.Res}
    (hb : b ∈ p) (bump : isBump I.nameSpace b = true) : Since C b v h := by
  obtain ⟨s, hread⟩ := History.exists_suffix_of_mem_own looks.read
  have hbs : b ∈ s :=
    mem_of_first hl he rfl hread hb
  obtain ⟨t', call', origin, v₀, ⟨⟨rest, l, hr⟩, -, -⟩, -, hg, hy⟩ := hs
  obtain ⟨s', hfiled, hown⟩ := History.exists_suffix_of_own hr.symm
  have hs' : s' <:+ h := (List.suffix_cons _ _).trans (hfiled.trans hq)
  -- both have read the same generation, so as many bumps had happened
  have hcount : bumps I.nameSpace s' = bumps I.nameSpace s := by
    have h1 := ho.counted _ _ (hfiled.trans hq) t' _ _ rfl
    have h2 := ho.counted _ _ hread t _ _ rfl
    rw [← h1, ← h2, hg]
  have hbs' : b ∈ s' :=
    History.mem_of_countP_le ((List.suffix_cons _ _).trans hread) hs' hcount.ge hbs bump
  obtain ⟨p', he', -⟩ := History.exists_suffix_of_own (show History.own s' t' = [] ++ _ from hown)
  have hin : phase (History.own s' t') = .inside (.after call' (.query (.ok v₀))) := by
    rw [hown]
    rfl
  have hbp := bump_before_entered plain (hl.suffix hs') (ho.suffix hs') he' rfl hin rfl hbs' bump
  exact ⟨t', call', v₀, ⟨p', he'.trans hs', hbp⟩, hy⟩

omit [DecidableEq T] in
private theorem inner_of_fill {op : Op V} {r : op.Res} {e : Int} {d : String} (hf : Fill op r e d v) :
    op.Inner ∧ isBump I.nameSpace (⟨t, op, r⟩ : Event T (Op V) Op.Res) = false ∧
      ∀ e, op ≠ .l1Clear e := by
  cases hf with
  | replace => exact ⟨trivial, rfl, nofun⟩
  | insert => exact ⟨trivial, rfl, nofun⟩

/-- Who fills a slot is in a hook call about a query. -/
theorem isQuery_of_fill (hl : Lawful (fun t => rule I X C (tasks t)) h) {f : Event T (Op V) Op.Res}
    {e : Int} (hs : f :: s <:+ h) (hf : fillOf e f ≠ none) :
    f.op.Inner ∧ (tasks f.task).isQuery = true := by
  obtain ⟨u, op, r⟩ := f
  have keyed : op.Inner ∧ ((∃ call key, LooksUp I X C call key (History.own s u)) ∨
      ∃ call v key, Resolved I X C call (.ok v) key (History.own s u)) := by
    have hr : rule I X C (tasks u) (History.own s u) op := hl _ _ hs
    cases op with
    | l1Replace => exact ⟨trivial, Fills.keyed hr⟩
    | l1Insert => exact ⟨trivial, Fills.keyed hr⟩
    | _ => exact absurd rfl hf
  have hls := hl.suffix ((List.suffix_cons _ _).trans hs)
  refine ⟨keyed.1, ?_⟩
  rcases keyed.2 with ⟨call, key, looks⟩ | ⟨call, v, key, resolved⟩
  · exact (isQuery_of_entered hls looks.entered).symm
  · exact (isQuery_of_entered hls resolved.entered).symm

/-- A slot that is there when a DML of its executor bumps cannot be: the DML has cleared it, and
nobody fills slots while it goes on. -/
theorem not_refilled_of_bump (hl : Lawful (fun t => rule I X C (tasks t)) h) {n : String}
    {r : (Op.backend (V := V) (.bumpGeneration n)).Res} {call : Call V}
    (ho : Orderly (⟨t, .backend (.bumpGeneration n), r⟩ :: h)) (dml : Dml call (h.own t))
    (cleared : ⟨.l1Clear call.rb.id, ()⟩ ∈ h.own t) : ¬ Refilled call.rb.id h := by
  intro refilled
  have hc : h <:+ ⟨t, .backend (.bumpGeneration n), r⟩ :: h := List.suffix_cons _ _
  obtain ⟨hook, hin⟩ := ho.inside (List.suffix_refl _) trivial
  obtain ⟨er, hentered, -⟩ := dml
  have exec := isQuery_of_entered hl hentered
  obtain ⟨p, he⟩ := History.exists_suffix_of_mem_own hentered
  have hrank : (Phase.inside hook).rank = 4 := by
    have hle := rank_mono (t := t) (ho.bracketed.suffix hc) he
    rw [hin, History.own_cons_self] at hle
    exact (rank_inside_le hook).antisymm hle
  obtain ⟨q, hq⟩ := History.exists_suffix_of_mem_own cleared
  obtain ⟨f, s, hs, hf, hqs⟩ := refilled _ q hq rfl
  obtain ⟨inner, query⟩ := isQuery_of_fill hl hs hf
  have hne : f.task ≠ t := by
    rintro rfl
    rw [query] at exec
    cases exec
  -- so the slot was cleared before the DML's hook call was entered
  have hfp := suffix_of_inside (ho.bracketed.suffix hc) (ho.alone.suffix hc) he hin hrank hs inner hne
  have hqp : q <:+ p := (List.suffix_cons _ _).trans (hqs.trans ((List.suffix_cons _ _).trans hfp))
  obtain ⟨call', ⟨er', hearlier, -⟩, -⟩ := hl _ _ hq
  obtain ⟨p', he'⟩ := History.exists_suffix_of_mem_own hearlier
  have hlow := rank_mono (t := t)
    (ho.bracketed.suffix (((List.suffix_cons _ _).trans he).trans hc)) (he'.trans hqp)
  rw [History.own_cons_self] at hlow
  have hfirst : phase (History.own p t) = .idle ∨ phase (History.own p t) = .performed :=
    ho.bracketed _ _ (he.trans hc)
  rcases hfirst with hp | hp
  · rw [hp] at hlow
    simp [phase, Phase.rank] at hlow
  · rw [hp] at hlow
    simp [phase, Phase.rank] at hlow

variable {B : CacheBackend} {H : B.Healthy}

private theorem currentSlot_kept (plain : Plain tasks) (codec : X.RoundTrips)
    {A : Restriction T (Op V) Op.Res (Choice B V) (World B V)} :
    SlotsKept (I := I) (X := X) (C := C) tasks A (CurrentSlot I C) H.honest where
  fill := by
    intro t op ch w h r u e d v hl hi hr ha hm hf ho'
    have hc : h <:+ ⟨t, op, r⟩ :: h := List.suffix_cons _ _
    have ho := ho'.suffix hc
    obtain ⟨inner, bump, clear⟩ := inner_of_fill (I := I) (t := t) hf
    constructor
    · intro c q hq hop
      rcases List.suffix_cons_iff.mp hq with hq | hq
      · cases hq
        exact absurd hop (clear e)
      · refine ⟨⟨t, op, r⟩, h, List.suffix_refl _, ?_, hq⟩
        rw [fillOf_of_fill hf]
        simp
    · intro b hb hbump
      right
      have hbh : b ∈ h := by
        rcases List.mem_cons.mp hb with rfl | hb
        · rw [bump] at hbump
          cases hbump
        · exact hb
      refine Since.suffix ?_ hc
      cases hf.fills hr with
      | promoted looks executor digest_eq found =>
        obtain ⟨_, q, hq, hserved⟩ := hi.served codec (List.suffix_refl _) found
        obtain ⟨p, he⟩ := History.exists_suffix_of_mem_own looks.entered
        have hbp := bump_before_entered plain hl ho he rfl looks.inside rfl hbh hbump
        exact hserved.since plain hl ho looks ((List.suffix_cons _ _).trans hq) he hbp hbump
      | loaded resolved executor digest_eq =>
        obtain ⟨p, he⟩ := History.exists_suffix_of_mem_own resolved.entered
        obtain ⟨hook, hin⟩ := ho'.inside (List.suffix_refl _) inner
        have hrank := rank_mono (t := t) ho.bracketed he
        rw [hin, History.own_cons_self] at hrank
        have hbp := bump_before_entered plain hl ho he rfl hin
          ((rank_inside_le hook).antisymm hrank) hbh hbump
        exact ⟨t, _, v, ⟨p, he, hbp⟩, .inl rfl⟩
  keep := by
    intro t op ch w h r u e entry hl hi hr ha hm hw hclear hfill hS ho'
    have hc : h <:+ ⟨t, op, r⟩ :: h := List.suffix_cons _ _
    obtain ⟨refilled, current⟩ := hS (ho'.suffix hc)
    constructor
    · intro c q hq hop
      rcases List.suffix_cons_iff.mp hq with hq | hq
      · cases hq
        exact absurd hop hclear
      · obtain ⟨f, s, hs, hf, hqs⟩ := refilled c q hq hop
        exact ⟨f, s, hs.trans hc, hf, hqs⟩
    · intro b hb hbump
      have none := fillOf_of_not_fill (t := t) hfill
      rcases List.mem_cons.mp hb with rfl | hb
      · left
        obtain rfl : op = _ := op_of_isBump hbump
        obtain ⟨call, dml, cleared⟩ := dml_of_bumps plain hl hr
        have hne : call.rb.id ≠ e := by
          rintro rfl
          exact not_refilled_of_bump hl ho' dml cleared refilled
        exact ⟨none, .inl ⟨hbump, _, History.mem_own.mp cleared, rfl, call.rb.id, rfl, hne⟩⟩
      · rcases current b hb hbump with old | since
        · exact .inl ⟨none, .inr old⟩
        · exact .inr (since.suffix hc)

private theorem freshSlots_permitted {n : String} {state : B.State}
    {d : Config T (Op V) Op.Res (World B V) (Reply V)}
    (run : Reaches (machine B V T I) (Coherent n) (initial I X C tasks state) d) :
    d.history.Always fun event s => ∀ t e v, event = ⟨t, .l1Lookup e, .live v⟩ →
      ¬ OutdatedSlot n e s := by
  refine run.permitted (fun t op ch w h r u ha hm t' e v he => ?_) rfl
  cases he
  refine ha.2.2 e rfl ?_
  rw [show w.l1.lookup e ch.instant = .live v from congrArg Prod.fst (Option.some.inj hm)]
  rfl

private theorem reaches_orderly {n : String} {state : B.State} (empty : H.abs state = .empty)
    {d : Config T (Op V) Op.Res (World B V) (Reply V)}
    (run : Reaches (machine B V T I) (Coherent n) (initial I X C tasks state) d) :
    Orderly d.history where
  bracketed := reaches_bracketed run
  alone := run.permitted (fun _ _ _ _ _ _ _ ha _ => ha.1) rfl
  counted := (reaches_counted empty (fun _ _ _ _ _ ha => ha.2.1) run).answered

/-- What a `before` answers after the bump of a DML was handed to an `after` that was entered after
that bump, in every run of complete hook calls outside transactions that uses no outdated slot. -/
theorem before_current_after_bump (plain : Plain tasks) (codec : X.RoundTrips) {state : B.State}
    (empty : H.abs state = .empty) {d : Config T (Op V) Op.Res (World B V) (Reply V)}
    (run : Reaches (machine B V T I) (Coherent I.nameSpace) (initial I X C tasks state) d)
    {t w : T} {call : Call V} {v : V} {m : UInt64} {s : History V T}
    (answered : ⟨t, .leave (.before call (.query ())) (.ok (.return v)), ()⟩ :: s <:+ d.history)
    (later : s.Precedes ⟨w, .backend (.bumpGeneration I.nameSpace), .ok m⟩
      ⟨t, .enter (.before call (.query ())), ()⟩) :
    ∃ t' call' v₀, s.Precedes ⟨w, .backend (.bumpGeneration I.nameSpace), .ok m⟩
      ⟨t', .enter (.after call' (.query (.ok v₀))), ()⟩ ∧ Yields C v₀ v := by
  obtain ⟨hl, hi⟩ := reaches_layers (H := H.honest) (currentSlot_kept plain codec) empty run
  have hsuf : s <:+ d.history := (List.suffix_cons _ _).trans answered
  have ho := (reaches_orderly empty run).suffix hsuf
  have hls := hl.suffix hsuf
  have hans : Answered I X C call v (History.own s t) := hl _ _ answered
  have hbump : isBump I.nameSpace (⟨w, .backend (.bumpGeneration I.nameSpace), .ok m⟩ :
      Event T (Op V) Op.Res) = true := by simp [isBump]
  obtain ⟨p, he, hb⟩ := later
  cases hans with
  | buffered entered transaction =>
    obtain ⟨c, hcall, outside⟩ := plain t
    have hsame := call_of_entered hls entered
    rw [hcall] at hsame
    cases hsame
    rw [outside] at transaction
    cases transaction
  | l1 looks got =>
    obtain ⟨q, hq⟩ := History.exists_suffix_of_mem_own got
    have hqs : q <:+ s := (List.suffix_cons _ _).trans hq
    have hbq := mem_of_first hls he rfl hq hb
    have hslot := hi.looked _ _ (hq.trans hsuf) t _ v rfl
    rcases (hslot (ho.suffix hqs)).2 _ hbq hbump with old | since
    · exact absurd old (freshSlots_permitted run _ _ (hq.trans hsuf) t _ v rfl)
    · exact since.suffix hqs
  | l2 looks found =>
    obtain ⟨_, q, hq, hserved⟩ := hi.served codec hsuf found
    exact hserved.since plain hls ho looks ((List.suffix_cons _ _).trans hq) he hb hbump

end
/-- The first generation of the sample namespace. -/
def firstBump {T : Type} (t : T) : Event T (Op UInt64) Op.Res :=
  ⟨t, .backend (.bumpGeneration "ns"), .ok 1⟩

/-- A DML and two queries of one executor, the second one answered from the slot. -/
theorem slot_filled_after_dml :
    ∃ (d : Sample.State (Fin 3)) (s : History UInt64 (Fin 3)),
      ⟨2, .leave (.before (Sample.call 1 "SELECT 1") (.query ())) (.ok (.return 8)), ()⟩ :: s <:+
        d.history ∧
      ⟨2, .l1Lookup 1, .live 8⟩ ∈ s ∧
      ∃ t' call' v₀, s.Precedes (firstBump 0) ⟨t', .enter (.after call' (.query (.ok v₀))), ()⟩ ∧
        Yields Sample.codec v₀ 8 := by
  let tasks : Fin 3 → Task UInt64 := fun t =>
    if t = 0 then Sample.dml (Sample.call 1 "UPDATE t SET x = 1")
    else Sample.select (Sample.call 1 "SELECT 1")
  obtain ⟨d, run, seen⟩ := play_observed (M := Sample.steps (Fin 3) Sample.interceptor)
    (A := Coherent "ns") (c := Sample.start Sample.interceptor tasks)
    (List.replicate 8 (0, Sample.reading 7) ++ List.replicate 19 (1, Sample.reading 8) ++
      List.replicate 5 (2, Sample.reading 9))
    (fun d => decide (d.history.head? = some
        ⟨2, .leave (.before (Sample.call 1 "SELECT 1") (.query ())) (.ok (.return 8)), ()⟩) &&
      decide (⟨2, .l1Lookup 1, .live 8⟩ ∈ d.history.tail) &&
      decide (History.Precedes d.history.tail (firstBump 0)
        ⟨2, .enter (.before (Sample.call 1 "SELECT 1") (.query ())), ()⟩))
    (by decide +kernel)
  simp only [Bool.and_eq_true, decide_eq_true_eq] at seen
  obtain ⟨⟨head, slot⟩, later⟩ := seen
  obtain ⟨s, hs⟩ := List.head?_eq_some_iff.mp head
  rw [hs, List.tail_cons] at slot later
  have suffix : ⟨2, .leave (.before (Sample.call 1 "SELECT 1") (.query ())) (.ok (.return 8)), ()⟩ ::
      s <:+ d.history := by rw [hs]
  have plain : Plain tasks := by
    intro t
    match t with
    | 0 | 1 | 2 => exact ⟨_, rfl, Sample.call_outside _ _⟩
  exact ⟨d, s, suffix, slot, before_current_after_bump (H := LocalBackend.healthy _) plain
    Sample.externals_roundTrips rfl run suffix later⟩

/-- The slot of an executor answers after the DML of another one. -/
theorem slot_survives_foreign_dml :
    ∃ (d : Sample.State (Fin 3)) (s : History UInt64 (Fin 3)),
      Reaches (Sample.steps (Fin 3) Sample.interceptor) NonOverlapping
        (Sample.start Sample.interceptor fun t =>
          if t = 1 then Sample.dml (Sample.call 2 "UPDATE t SET x = 1")
          else Sample.select (Sample.call 1 "SELECT 1")) d ∧
      ⟨2, .leave (.before (Sample.call 1 "SELECT 1") (.query ())) (.ok (.return 7)), ()⟩ :: s <:+
        d.history ∧
      s.Precedes (firstBump 1) ⟨2, .enter (.before (Sample.call 1 "SELECT 1") (.query ())), ()⟩ ∧
      ¬ ∃ t' call' v₀, s.Precedes (firstBump 1) ⟨t', .enter (.after call' (.query (.ok v₀))), ()⟩ := by
  obtain ⟨d, run, seen⟩ := play_observed (M := Sample.steps (Fin 3) Sample.interceptor)
    (A := NonOverlapping)
    (c := Sample.start Sample.interceptor fun t =>
      if t = 1 then Sample.dml (Sample.call 2 "UPDATE t SET x = 1")
      else Sample.select (Sample.call 1 "SELECT 1"))
    (List.replicate 19 (0, Sample.reading 7) ++ List.replicate 8 (1, Sample.reading 8) ++
      List.replicate 5 (2, Sample.reading 8))
    (fun d => decide (d.history.head? = some
        ⟨2, .leave (.before (Sample.call 1 "SELECT 1") (.query ())) (.ok (.return 7)), ()⟩) &&
      decide (History.Precedes d.history.tail (firstBump 1)
        ⟨2, .enter (.before (Sample.call 1 "SELECT 1") (.query ())), ()⟩) &&
      decide (History.Always (fun e s => Op.handedOver e.op ≠ none → firstBump 1 ∉ s) d.history))
    (by decide +kernel)
  simp only [Bool.and_eq_true, decide_eq_true_eq] at seen
  obtain ⟨⟨head, later⟩, before⟩ := seen
  obtain ⟨s, hs⟩ := List.head?_eq_some_iff.mp head
  rw [hs, List.tail_cons] at later
  refine ⟨d, s, run, by rw [hs], later, ?_⟩
  rintro ⟨t', call', v₀, p, hp, hb⟩
  have hsuf : s <:+ d.history := by
    rw [hs]
    exact List.suffix_cons _ _
  exact before _ _ (hp.trans hsuf) (Option.some_ne_none _) hb

end RbatisCache.RbatisInterceptor
