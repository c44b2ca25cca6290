import Mathlib.Data.List.TakeWhile
import RbatisCache.RbatisInterceptor.Layers
import RbatisCache.RbatisInterceptor.Sample

/-! What a query of a transaction finds in its buffer. `after` files a result under the generation it
has read, `before` asks under generation 0. -/
namespace RbatisCache.RbatisInterceptor
open Interleaving
open RbatisCacheInterceptor

section
variable {V T : Type}

/-- The buffer of a transaction after a history. -/
def bufferOf (I : RbatisCacheInterceptor) (tx : Int) :
    History V T → Option (TransactionalCacheBuffer V)
  | [] => none
  | e :: h => e.op.onBuffer I tx (bufferOf I tx h)

/-- What the buffer holds under a digest. -/
def bufferedOf (I : RbatisCacheInterceptor) (tx : Int) (digest : String) (h : History V T) : Option V :=
  (bufferOf I tx h).bind fun buffer => buffer.pendingGet digest

/-- Whether an operation changes the buffer of a transaction. -/
def Op.touchesBuffer (tx : Int) : Op V → Bool
  | .bufferPut x _ _ | .clearNamespace x _ | .insertBuffer x | .removeBuffer x => tx == x
  | _ => false

variable {I : RbatisCacheInterceptor} {tx : Int} {g h : History V T} {key : CacheKey} {value : V}

private theorem onBuffer_untouched {op : Op V} (untouched : op.touchesBuffer tx = false)
    (buffer : Option (TransactionalCacheBuffer V)) : op.onBuffer I tx buffer = buffer := by
  cases op with
  | bufferPut | clearNamespace | insertBuffer | removeBuffer =>
    exact if_neg (of_decide_eq_false untouched)
  | _ => rfl

private theorem bufferOf_untouched (untouched : ∀ e ∈ g, e.op.touchesBuffer tx = false) :
    bufferOf I tx (g ++ h) = bufferOf I tx h := by
  induction g with
  | nil => rfl
  | cons e g ih =>
    have rest := ih fun e' he' => untouched e' (List.mem_cons_of_mem _ he')
    exact (onBuffer_untouched (untouched e List.mem_cons_self) _).trans rest

private theorem pendingGet_put_self (b : TransactionalCacheBuffer V) :
    (b.put key value).pendingGet key.digest = some value := by
  unfold TransactionalCacheBuffer.pendingGet TransactionalCacheBuffer.put
  rw [AList.lookup_insert, Option.map_some]

private theorem pendingGet_put_ne (b : TransactionalCacheBuffer V) {digest : String}
    (other : digest ≠ key.digest) : (b.put key value).pendingGet digest = b.pendingGet digest := by
  unfold TransactionalCacheBuffer.pendingGet TransactionalCacheBuffer.put
  rw [AList.lookup_insert_ne other]

end

section
variable {B : CacheBackend} {V T : Type} [DecidableEq T] {I : RbatisCacheInterceptor}
variable {X : Externals Bytes} {C : ValueCodec V} {tasks : T → Task V} {state : B.State}
variable {A : Restriction T (Op V) Op.Res (Choice B V) (World B V)}
variable {c : Config T (Op V) Op.Res (World B V) (Reply V)}

/-- What an event has seen of the buffers. -/
def SawBuffer (I : RbatisCacheInterceptor) (e : Event T (Op V) Op.Res) (s : History V T) : Prop :=
  (∀ t tx d r, e = ⟨t, .pendingGet tx d, r⟩ → r = bufferedOf I tx d s) ∧
  ∀ t tx key v, e = ⟨t, .bufferPut tx key v, true⟩ → ∃ buffer, bufferOf I tx s = some buffer

private theorem reaches_bufferOf (run : Reaches (machine B V T I) A (initial I X C tasks state) c) :
    (∀ tx, c.world.txBuffers.lookup tx = bufferOf I tx c.history) ∧
    c.history.Always (SawBuffer I) := by
  induction run with
  | refl => exact ⟨fun tx => rfl, History.always_nil⟩
  | tail _ step ih =>
    obtain ⟨buffers, saw⟩ := ih
    obtain @⟨t, ch, op, next, r, w, _, _, hm⟩ := step
    refine ⟨fun tx => ?_, saw.cons ⟨?_, ?_⟩⟩
    · rw [bufferOf, txBuffers_of_perform hm tx, buffers]
    · rintro _ tx d _ ⟨⟩
      have found := congrArg Prod.fst (Option.some.inj hm)
      refine found.symm.trans ?_
      change World.pendingGet _ tx d = bufferedOf I tx d _
      rw [World.pendingGet, buffers tx, bufferedOf]
    · rintro _ tx key v ⟨⟩
      rw [← buffers tx]
      have filed := congrArg Prod.fst (Option.some.inj hm)
      unfold World.onBuffer at filed
      split at filed
      · cases filed
      · next buffer present => exact ⟨buffer, present⟩

/-- In a transaction whose buffer nobody has touched since `after` filed the result of a query in it,
the probe of a `before` for the same query finds that result if and only if `after` had read
generation 0, or an equal value had been filed under generation 0 before. -/
theorem probe_finds_filed_iff (hash : Function.Injective X.blake3)
    (run : Reaches (machine B V T I) A (initial I X C tasks state) c) {t t' : T} {call call' : Call V}
    (filing : (tasks t).call = some call) (asking : (tasks t').call = some call')
    (fits : (buildKeyInput I C call).Fits X.parser) (transaction : call'.taskId = call.taskId)
    (sql : call'.sql = call.sql) (args : call'.args = call.args)
    (driver : call'.rb.driverType = call.rb.driverType) {key : CacheKey} {value : V}
    {digest : String} {found : Option V} {since before : History V T}
    (probe : ⟨t', .pendingGet call'.taskId digest, found⟩ ::
      (since ++ ⟨t, .bufferPut call.taskId key value, true⟩ :: before) <:+ c.history)
    (untouched : ∀ e ∈ since, e.op.touchesBuffer call.taskId = false) :
    found = some value ↔
      key.generation = 0 ∨ bufferedOf I call.taskId digest before = some value := by
  rw [transaction] at probe
  have law := reaches_lawful run
  obtain ⟨-, saw⟩ := reaches_bufferOf run
  have filed : ⟨t, .bufferPut call.taskId key value, true⟩ :: before <:+ c.history :=
    ((List.suffix_append since _).trans (List.suffix_cons _ _)).trans probe
  -- both keys are built from the same input
  obtain ⟨filer, resolved, -, -, -⟩ := law _ _ filed
  have own : some filer = (tasks t).call :=
    call_of_entered (law.suffix ((List.suffix_cons _ _).trans filed)) resolved.entered
  rw [filing, Option.some_inj] at own
  rw [own] at resolved
  obtain ⟨asker, key₀, -, -, entered, built₀, -, rfl⟩ := law _ _ probe
  have own' : some asker = (tasks t').call :=
    call_of_entered (law.suffix ((List.suffix_cons _ _).trans probe)) entered
  rw [asking, Option.some_inj] at own'
  rw [own'] at built₀
  have input : buildKeyInput I C call' = buildKeyInput I C call := by
    unfold buildKeyInput
    rw [sql, args, driver]
  rw [input] at built₀
  have built := resolved.built
  -- what the buffer holds
  obtain ⟨buffer, present⟩ := (saw _ _ filed).2 _ _ _ _ rfl
  have asked : found = (buffer.put key value).pendingGet key₀.digest := by
    rw [(saw _ _ probe).1 _ _ _ _ rfl, bufferedOf, bufferOf_untouched untouched, bufferOf]
    simp [Op.onBuffer, present]
  rw [asked, bufferedOf, present, Option.bind_some]
  by_cases zero : key.generation = 0
  · rw [zero, built₀] at built
    cases built
    simp [zero, pendingGet_put_self]
  · have other : key₀.digest ≠ key.digest := by
      intro same
      exact zero (CacheKey.origin_of_digest hash built₀ built fits fits same).2.symm
    rw [pendingGet_put_ne buffer other]
    simp [zero]

end
namespace Sample
open RbatisCache.Sample

/-- A DML outside transactions, and the statements of transaction 9 after it has begun. -/
def repeating : Fin 4 → Task UInt64
  | 0 => dml (call 1 "UPDATE t SET x = 1")
  | 1 => event .begin 9
  | 2 | 3 => select (txCall 9 "SELECT 1")

/-- The key of the query under a generation. -/
def keyAt (generation : UInt64) : CacheKey :=
  (CacheKey.build externals (deferring.buildKeyInput codec (txCall 9 "SELECT 1")) generation).toOption.getD
    ⟨"", "", 0, ∅⟩

/-- The last event is a probe of the buffer, and the last one before it that has changed the buffer
is the filing of 8. -/
def probed (found : Option UInt64) (generation : UInt64) (d : State (Fin 4)) : Bool :=
  decide (d.history.head? = some ⟨3, .pendingGet 9 (keyAt 0).digest, found⟩) &&
    decide ((d.history.tail.dropWhile fun e => !e.op.touchesBuffer 9).head? =
      some ⟨2, .bufferPut 9 (keyAt generation) 8, true⟩)

private theorem split_of_probed {found : Option UInt64} {generation : UInt64} {d : State (Fin 4)}
    (seen : probed found generation d = true) : ∃ since before,
      ⟨3, .pendingGet 9 (keyAt 0).digest, found⟩ ::
        (since ++ ⟨2, .bufferPut 9 (keyAt generation) 8, true⟩ :: before) = d.history ∧
      ∀ e ∈ since, e.op.touchesBuffer 9 = false := by
  unfold probed at seen
  simp only [Bool.and_eq_true, decide_eq_true_eq] at seen
  obtain ⟨head, filed⟩ := seen
  obtain ⟨rest, hr⟩ := List.head?_eq_some_iff.mp head
  rw [hr, List.tail_cons] at filed
  obtain ⟨before, hb⟩ := List.head?_eq_some_iff.mp filed
  refine ⟨rest.takeWhile fun e => !e.op.touchesBuffer 9, before, ?_, fun e he => ?_⟩
  · rw [hr, ← hb, List.takeWhile_append_dropWhile]
  · simpa using List.mem_takeWhile_imp he

end Sample

/-- Under generation 0 a query of a transaction finds what the one before it has read. -/
theorem buffered_result_found : ∃ (d : RbatisCache.Sample.State (Fin 4)) (found : Option UInt64),
    d.history.head? = some ⟨3, .pendingGet 9 (Sample.keyAt 0).digest, found⟩ ∧ found = some 8 := by
  obtain ⟨d, run, seen⟩ := play_observed
    (M := RbatisCache.Sample.steps (Fin 4) RbatisCache.Sample.deferring) (A := Restriction.none)
    (c := RbatisCache.Sample.start RbatisCache.Sample.deferring Sample.repeating)
    (List.replicate 3 (1, RbatisCache.Sample.reading 7) ++
      List.replicate 19 (2, RbatisCache.Sample.reading 8) ++
      List.replicate 2 (3, RbatisCache.Sample.reading 9))
    (Sample.probed (some 8) 0) (by decide +kernel)
  obtain ⟨since, before, history, untouched⟩ := Sample.split_of_probed seen
  have short : (RbatisCache.Sample.deferring.buildKeyInput RbatisCache.Sample.codec
      (RbatisCache.Sample.txCall 9 "SELECT 1")).Fits RbatisCache.Sample.externals.parser :=
    RbatisCache.Sample.fits_of_short rfl (by decide)
  refine ⟨d, some 8, by rw [← history, List.head?_cons], ?_⟩
  have zero : (Sample.keyAt 0).generation = 0 := by decide +kernel
  have probe : ⟨3, .pendingGet 9 (Sample.keyAt 0).digest, some 8⟩ ::
      (since ++ ⟨2, .bufferPut 9 (Sample.keyAt 0) 8, true⟩ :: before) <:+ d.history := by
    rw [← history]
  have filing : (Sample.repeating 2).call = some (RbatisCache.Sample.txCall 9 "SELECT 1") := rfl
  have asking : (Sample.repeating 3).call = some (RbatisCache.Sample.txCall 9 "SELECT 1") := rfl
  exact (probe_finds_filed_iff RbatisCache.Sample.hash_injective run filing asking short rfl rfl rfl rfl
    probe untouched).mpr (.inl zero)

/-- Under generation 1 it finds nothing. -/
theorem buffered_result_missed : ∃ d : RbatisCache.Sample.State (Fin 4),
    Reaches (RbatisCache.Sample.steps (Fin 4) RbatisCache.Sample.deferring) Restriction.none
      (RbatisCache.Sample.start RbatisCache.Sample.deferring Sample.repeating) d ∧
    ∃ since before, ⟨3, .pendingGet 9 (Sample.keyAt 0).digest, none⟩ ::
        (since ++ ⟨2, .bufferPut 9 (Sample.keyAt 1) 8, true⟩ :: before) = d.history ∧
      ∀ e ∈ since, e.op.touchesBuffer 9 = false := by
  obtain ⟨d, run, seen⟩ := play_observed
    (M := RbatisCache.Sample.steps (Fin 4) RbatisCache.Sample.deferring) (A := Restriction.none)
    (c := RbatisCache.Sample.start RbatisCache.Sample.deferring Sample.repeating)
    (List.replicate 8 (0, RbatisCache.Sample.reading 7) ++
      List.replicate 3 (1, RbatisCache.Sample.reading 7) ++
      List.replicate 19 (2, RbatisCache.Sample.reading 8) ++
      List.replicate 2 (3, RbatisCache.Sample.reading 9))
    (Sample.probed none 1) (by decide +kernel)
  exact ⟨d, run, Sample.split_of_probed seen⟩

end RbatisCache.RbatisInterceptor
