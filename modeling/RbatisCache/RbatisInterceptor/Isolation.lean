import RbatisCache.RbatisInterceptor.Layers
import RbatisCache.RbatisInterceptor.Sample

/-! Isolation of queries. The backend and the buffers are keyed by digests; the slots of the
first-level cache are not, and isolate queries only while each is used for one of them. -/
namespace RbatisCache.RbatisInterceptor
open Interleaving
open RbatisCacheInterceptor

section
variable {V T : Type}

/-- The digest under which the slot of an executor was filled last. -/
def lastFill (e : Int) : History V T → Option String
  | [] => none
  | event :: h => fillOf e event <|> lastFill e h

variable (I : RbatisCacheInterceptor) (X : Externals Bytes) (C : ValueCodec V)

/-- The same canonical SQL, the same encoded arguments and the same driver. -/
def SameQuery (a b : Call V) : Prop :=
  ∃ ma mb, SqlMetadata.parse X.parser a.sql = .ok ma ∧ SqlMetadata.parse X.parser b.sql = .ok mb ∧
    ma.canonicalSql = mb.canonicalSql ∧ C.argsToBytes a.args = C.argsToBytes b.args ∧
    (buildKeyInput I C a).driver = (buildKeyInput I C b).driver

/-- No query looks into a live slot that was last filled for another query. -/
def OwnSlot {B : CacheBackend} : Restriction T (Op V) Op.Res (Choice B V) (World B V) :=
  fun t op ch w h => match op with
    | .l1Lookup e => ∀ v d, w.l1.lookup e ch.instant = .live v → lastFill e h = some d →
        ∀ call, ⟨t, .enter (.before call (.query ())), ()⟩ ∈ h →
          ∃ g key, CacheKey.build X (buildKeyInput I C call) g = .ok key ∧ key.digest = d
    | _ => True

/-- The slot holds a result of the query for which it was filled last. -/
def FilledFor [DecidableEq T] (e : Int) (v : V) (h : History V T) : Prop :=
  ∃ d t call key v₀, lastFill e h = some d ∧ Filed I X C h t call key v₀ ∧ key.digest = d ∧
    Yields C v₀ v

variable {I X C}

theorem SameQuery.of_digest {a b : Call V} {g h : UInt64} {ka kb : CacheKey}
    (hash : Function.Injective X.blake3)
    (ha : CacheKey.build X (buildKeyInput I C a) g = .ok ka)
    (hb : CacheKey.build X (buildKeyInput I C b) h = .ok kb)
    (fa : (buildKeyInput I C a).Fits X.parser) (fb : (buildKeyInput I C b).Fits X.parser)
    (hd : ka.digest = kb.digest) : SameQuery I X C a b := by
  obtain ⟨ma, mb, hma, hmb, hs⟩ := CacheKey.stream_of_digest hash ha hb fa fb hd
  obtain ⟨hc, -, hp⟩ := CacheKeyInput.stream_inj hs
  simp only [CacheKeyInput.components, List.cons.injEq] at hc
  exact ⟨ma, mb, hma, hmb, hc.2.2.2.2.2.2.1, hp, hc.2.2.1⟩

variable [DecidableEq T] {B : CacheBackend} {H : B.Honest} {tasks : T → Task V}

private theorem filledFor_kept (codec : X.RoundTrips) :
    SlotsKept (I := I) (X := X) (C := C) tasks (OwnSlot I X C) (FilledFor I X C) H where
  fill := by
    intro t op ch w h r u e d v hl hi hr ha hm hf
    have hc : h <:+ ⟨t, op, r⟩ :: h := List.suffix_cons _ _
    have hlast : lastFill e (⟨t, op, r⟩ :: h) = some d := by
      simp [lastFill, fillOf_of_fill hf]
    cases hf.fills hr with
    | promoted looks executor digest_eq found =>
      obtain ⟨_, s, hs, t', call', origin, v₀, hfiled, hd, -, hy⟩ :=
        hi.served codec (List.suffix_refl _) found
      have hfiled := hfiled.suffix (((List.suffix_cons _ _).trans hs).trans hc)
      exact ⟨d, t', call', origin, v₀, hlast, hfiled, hd.trans digest_eq, hy⟩
    | loaded resolved executor digest_eq =>
      exact ⟨d, t, _, _, v, hlast, Filed.suffix resolved hc, digest_eq, .inl rfl⟩
  keep := by
    intro t op ch w h r u e entry hl hi hr ha hm hw hclear hfill hS
    obtain ⟨d, t', call', key, v₀, hlast, hfiled, hd, hy⟩ := hS
    refine ⟨d, t', call', key, v₀, ?_, hfiled.suffix (List.suffix_cons _ _), hd, hy⟩
    simp [lastFill, fillOf_of_not_fill hfill, hlast]

/-- The restriction, as a fact about what has happened. -/
theorem ownSlot_permitted {state : B.State} {d : Config T (Op V) Op.Res (World B V) (Reply V)}
    (run : Reaches (machine B V T I) (OwnSlot I X C) (initial I X C tasks state) d) :
    d.history.Always fun event s => ∀ t e v digest, event = ⟨t, .l1Lookup e, .live v⟩ →
      lastFill e s = some digest → ∀ call, ⟨t, .enter (.before call (.query ())), ()⟩ ∈ s →
        ∃ g key, CacheKey.build X (buildKeyInput I C call) g = .ok key ∧ key.digest = digest := by
  refine run.permitted (fun t op ch w h r u ha hm t' e v digest he hlast call hc => ?_) rfl
  cases he
  exact ha v digest (congrArg Prod.fst (Option.some.inj hm)) hlast call hc

/-- A result filed under a digest of a query is a result of that query. -/
theorem Filed.sameQuery (hash : Function.Injective X.blake3)
    (fits : ∀ t call, (tasks t).call = some call → (buildKeyInput I C call).Fits X.parser)
    {h : History V T} (hl : Lawful (fun t => rule I X C (tasks t)) h) {t t' : T}
    {call call' : Call V} {key origin : CacheKey} {g : UInt64} {v : V}
    (hf : Filed I X C h t' call' origin v) (hcall : (tasks t).call = some call)
    (hb : CacheKey.build X (buildKeyInput I C call) g = .ok key) (hd : origin.digest = key.digest) :
    SameQuery I X C call' call := by
  have hcall' := call_of_entered hl (Resolved.entered hf)
  exact .of_digest hash (Resolved.built hf) hb (fits t' call' hcall'.symm) (fits t call hcall) hd

/-- A query that a `before` answers is answered with what was handed to an earlier `after` for the
same query, in every run in which no live slot serves two queries. -/
theorem before_answers_same_query (hash : Function.Injective X.blake3) (codec : X.RoundTrips)
    (fits : ∀ t call, (tasks t).call = some call → (buildKeyInput I C call).Fits X.parser)
    {state : B.State} (empty : H.abs state = .empty)
    {d : Config T (Op V) Op.Res (World B V) (Reply V)}
    (run : Reaches (machine B V T I) (OwnSlot I X C) (initial I X C tasks state) d)
    {t : T} {call : Call V} {v : V} {s : History V T}
    (answered : ⟨t, .leave (.before call (.query ())) (.ok (.return v)), ()⟩ :: s <:+ d.history) :
    ∃ t' call' v₀, ⟨t', .enter (.after call' (.query (.ok v₀))), ()⟩ ∈ s ∧
      SameQuery I X C call' call ∧ Yields C v₀ v := by
  obtain ⟨hl, hi⟩ := reaches_layers (filledFor_kept codec) empty run
  have hsuf : s <:+ d.history := (List.suffix_cons _ _).trans answered
  have hls := hl.suffix hsuf
  have hans : Answered I X C call v (History.own s t) := hl _ _ answered
  have hcall : (tasks t).call = some call := (call_of_entered hls hans.entered).symm
  -- an origin that was filed at an earlier moment under a digest of the query
  have origin {q : History V T} (hq : q <:+ s) {t' call' key g v₀} {k : CacheKey}
      (hf : Filed I X C q t' call' k v₀)
      (hb : CacheKey.build X (buildKeyInput I C call) g = .ok key) (hd : k.digest = key.digest)
      (hy : Yields C v₀ v) : ∃ t' call' v₀, ⟨t', .enter (.after call' (.query (.ok v₀))), ()⟩ ∈ s ∧
        SameQuery I X C call' call ∧ Yields C v₀ v := by
    have hf := hf.suffix hq
    exact ⟨t', call', v₀, hf.handed, hf.sameQuery hash fits hls hcall hb hd, hy⟩
  cases hans with
  | buffered entered transaction mode built got =>
    obtain ⟨q, hq⟩ := History.exists_suffix_of_mem_own got
    obtain ⟨k, hd, t', call', hf⟩ := hi.probed _ _ (hq.trans hsuf) t _ _ v rfl
    exact origin ((List.suffix_cons _ _).trans hq) hf built hd (.inl rfl)
  | l1 looks got =>
    obtain ⟨q, hq⟩ := History.exists_suffix_of_mem_own got
    obtain ⟨digest, t', call', k, v₀, hlast, hf, hd, hy⟩ := hi.looked _ _ (hq.trans hsuf) t _ v rfl
    have hentered : ⟨t, .enter (.before call (.query ())), ()⟩ ∈ q := by
      obtain ⟨call₂, key₂, hlooks, -⟩ := hl _ _ (hq.trans hsuf)
      have hlq := hls.suffix ((List.suffix_cons _ _).trans hq)
      have he : some call₂ = some call := (call_of_entered hlq hlooks.entered).trans hcall
      cases he
      exact History.mem_own.mp hlooks.entered
    obtain ⟨g, key, hb, hkey⟩ :=
      ownSlot_permitted run _ _ (hq.trans hsuf) t _ v digest rfl hlast call hentered
    exact origin ((List.suffix_cons _ _).trans hq) hf hb (hd.trans hkey.symm) hy
  | l2 looks found =>
    obtain ⟨_, q, hq, t', call', k, v₀, hf, hd, -, hy⟩ := hi.served codec hsuf found
    exact origin ((List.suffix_cons _ _).trans hq) hf looks.built hd hy

end

/-- The query that an operation hands to `before`. -/
def Op.asked : Op UInt64 → Option (Call UInt64)
  | .enter (.before call (.query _)) => some call
  | _ => none

/-- A slot that is looked into was filled last for the query, under the first generation. -/
def sameSlot {T : Type} : Sample.Rules T := fun t op _ _ h =>
  ∀ e ∈ op.lookedUp, ∀ digest ∈ lastFill e h, ∀ x ∈ h, x.task = t → ∀ call ∈ x.op.asked,
    (CacheKey.build Sample.externals (buildKeyInput Sample.interceptor Sample.codec call) 0).map
      CacheKey.digest = .ok digest

instance {T : Type} [DecidableEq T] (t : T) (op : Op UInt64) (ch : Choice Sample.Backend UInt64)
    (w : World Sample.Backend UInt64) (h : History UInt64 T) : Decidable (sameSlot t op ch w h) := by
  unfold sameSlot
  infer_instance

private theorem ownSlot_of_sameSlot {T : Type} {t : T} {op : Op UInt64}
    {ch : Choice Sample.Backend UInt64}
    {w : World Sample.Backend UInt64} {h : History UInt64 T} (same : sameSlot t op ch w h) :
    OwnSlot Sample.interceptor Sample.externals Sample.codec t op ch w h := by
  cases op with
  | l1Lookup e =>
    intro v digest _ filled call entered
    have built := same e rfl digest filled _ entered rfl call rfl
    cases key : CacheKey.build Sample.externals
        (buildKeyInput Sample.interceptor Sample.codec call) 0 with
    | error e =>
      rw [key] at built
      cases built
    | ok key' =>
      rw [key] at built
      exact ⟨0, key', key, Except.ok.inj built⟩
  | _ => trivial

/-- Two executors ask the same, the second one twice: it is answered from the backend first, and then from
its slot. -/
theorem second_executor_answered :
    ∃ (d : Sample.State (Fin 3)) (s : History UInt64 (Fin 3)),
      ⟨2, .leave (.before (Sample.call 2 "SELECT 1") (.query ())) (.ok (.return 7)), ()⟩ :: s <:+
        d.history ∧
      ⟨2, .l1Lookup 2, .live 7⟩ ∈ s ∧
      ∃ t' call' v₀, ⟨t', .enter (.after call' (.query (.ok v₀))), ()⟩ ∈ s ∧
        SameQuery Sample.interceptor Sample.externals Sample.codec call' (Sample.call 2 "SELECT 1") ∧
        Yields Sample.codec v₀ 7 := by
  let tasks : Fin 3 → Task UInt64 := fun t =>
    Sample.select (Sample.call (if t = 0 then 1 else 2) "SELECT 1")
  obtain ⟨d, run, seen⟩ := play_observed (M := Sample.steps (Fin 3) Sample.interceptor) (A := sameSlot)
    (c := Sample.start Sample.interceptor tasks)
    (List.replicate 19 (0, Sample.reading 7) ++ List.replicate 11 (1, Sample.reading 8) ++
      List.replicate 5 (2, Sample.reading 9))
    (fun d => decide (d.history.head? = some
        ⟨2, .leave (.before (Sample.call 2 "SELECT 1") (.query ())) (.ok (.return 7)), ()⟩) &&
      decide (⟨2, .l1Lookup 2, .live 7⟩ ∈ d.history.tail))
    (by decide +kernel)
  simp only [Bool.and_eq_true, decide_eq_true_eq] at seen
  obtain ⟨head, live⟩ := seen
  have fits (t : Fin 3) (call : Call UInt64) (h : (tasks t).call = some call) :
      (Sample.interceptor.buildKeyInput Sample.codec call).Fits Sample.externals.parser := by
    cases h
    exact Sample.call_fits _
  have suffix := History.suffix_of_head? head
  exact ⟨d, _, suffix, live, before_answers_same_query (H := (LocalBackend.healthy _).honest)
    Sample.hash_injective Sample.externals_roundTrips fits rfl
    (run.weaken fun _ _ _ _ _ => ownSlot_of_sameSlot) suffix⟩

/-- A connection that has cached one query answers another one with its result. -/
theorem answered_from_other_query :
    ∃ (d : Sample.State Bool) (s : History UInt64 Bool),
      Reaches (Sample.steps Bool Sample.interceptor) Restriction.none
        (Sample.start Sample.interceptor fun t =>
          Sample.select (Sample.call 1 (if t then "SELECT 2" else "SELECT 1"))) d ∧
      ⟨true, .leave (.before (Sample.call 1 "SELECT 2") (.query ())) (.ok (.return 7)), ()⟩ :: s <:+
        d.history ∧
      ¬ ∃ t' call' v₀, ⟨t', .enter (.after call' (.query (.ok v₀))), ()⟩ ∈ s ∧
        SameQuery Sample.interceptor Sample.externals Sample.codec call' (Sample.call 1 "SELECT 2") ∧
        Yields Sample.codec v₀ 7 := by
  obtain ⟨d, run, seen⟩ := play_observed (M := Sample.steps Bool Sample.interceptor)
    (A := Restriction.none)
    (c := Sample.start Sample.interceptor fun t =>
      Sample.select (Sample.call 1 (if t then "SELECT 2" else "SELECT 1")))
    (List.replicate 19 (false, Sample.reading 7) ++ List.replicate 5 (true, Sample.reading 8))
    (fun d => decide (d.history.head? = some
        ⟨true, .leave (.before (Sample.call 1 "SELECT 2") (.query ())) (.ok (.return 7)), ()⟩) &&
      decide (∀ e ∈ d.history, ∀ call ∈ e.op.handedOver, call = Sample.call 1 "SELECT 1"))
    (by decide +kernel)
  obtain ⟨head, only⟩ := Bool.and_eq_true_iff.mp seen
  obtain ⟨s, suffix⟩ := History.exists_suffix_of_head? (of_decide_eq_true head)
  refine ⟨d, s, run, suffix, ?_⟩
  rintro ⟨t', call', v₀, he, ⟨ma, mb, hma, hmb, hc, -⟩, -⟩
  have hcall : call' = Sample.call 1 "SELECT 1" :=
    of_decide_eq_true only _ (suffix.subset (List.mem_cons_of_mem _ he)) call' rfl
  subst hcall
  have ha : (SqlMetadata.parse Sample.parser "SELECT 1").map SqlMetadata.canonicalSql =
      .ok "SELECT 1" := by decide
  have hb : (SqlMetadata.parse Sample.parser "SELECT 2").map SqlMetadata.canonicalSql =
      .ok "SELECT 2" := by decide
  rw [show SqlMetadata.parse Sample.parser "SELECT 1" = .ok ma from hma] at ha
  rw [show SqlMetadata.parse Sample.parser "SELECT 2" = .ok mb from hmb] at hb
  have hsql : "SELECT 1" = "SELECT 2" :=
    (Except.ok.inj ha).symm.trans (hc.trans (Except.ok.inj hb))
  exact absurd hsql (by decide)

end RbatisCache.RbatisInterceptor
