import RbatisCache.RbatisInterceptor.Layers
import RbatisCache.RbatisInterceptor.Lookups
import RbatisCache.RbatisInterceptor.Sample
import RbatisCache.Rbs.Value

/-! The way of a value through the second-level cache. Its integers come back as `U64` or with a sign,
its extensions without their names. -/
namespace RbatisCache
open Interleaving
open Interleaving.Prog (perform bind_eq perform_bind pure_eq Only Ensures)

/-- `rbs::Value` as the interceptor uses it. -/
def Rbs.Serde.codec (S : Serde) : RbatisInterceptor.ValueCodec Value where
  toVecNamed v := S.write v.serialize
  fromSlice bytes :=
    match MessagePack.Message.read S.depthLimit bytes with
    | .error e => .error (S.display e)
    | .ok (m, _) => .ok (Value.deserialize S m)
  argsToVecNamed args := S.write (.array (args.map Value.serialize))
  shape
    | .null => .null
    | .array items => .array items.length
    | _ => .other

namespace RbatisInterceptor
open RbatisCacheInterceptor

section
variable {V : Type}

/-- What the last look into a cache was answered with, if it was the second-level cache that had
something. -/
def lastRead : Done V → Option Bytes
  | [] => none
  | ⟨.backend (.get _), .ok found⟩ :: _ => found
  | ⟨.backend (.get _), .error _⟩ :: _ | ⟨.l1Lookup _, _⟩ :: _ | ⟨.pendingGet _ _, _⟩ :: _ => none
  | _ :: done => lastRead done

variable {I : RbatisCacheInterceptor} {X : Externals Bytes} {C : ValueCodec V} {done : Done V}
variable {call : Call V} {v : V} {bytes : Bytes}

private theorem lastRead_cons {op : Op V} (hop : op.isLook = false) (r : op.Res) :
    lastRead (⟨op, r⟩ :: done) = lastRead done := by
  cases op with
  | backend o =>
    cases o with
    | get => cases hop
    | _ => rfl
  | l1Lookup | pendingGet => cases hop
  | _ => rfl

theorem Looked.lastRead {op : Op V} {r : op.Res} (h : Looked ⟨op, r⟩ done) :
    ∃ rest, lastRead done = lastRead (⟨op, r⟩ :: rest) := by
  obtain ⟨since, rest, rfl, hs⟩ := h
  refine ⟨rest, ?_⟩
  induction since with
  | nil => rfl
  | cons e since ih =>
    obtain ⟨o, q⟩ := e
    rw [List.cons_append, lastRead_cons (hs _ List.mem_cons_self).1]
    exact ih fun x hx => hs x (List.mem_cons_of_mem _ hx)

private theorem exists_get_of_lastRead (h : lastRead done = some bytes) :
    ∃ k, ⟨.backend (.get k), .ok (some bytes)⟩ ∈ done := by
  induction done with
  | nil => cases h
  | cons record done ih =>
    obtain ⟨op, r⟩ := record
    cases hop : op.isLook with
    | false =>
      rw [lastRead_cons hop] at h
      obtain ⟨k, hk⟩ := ih h
      exact ⟨k, List.mem_cons_of_mem _ hk⟩
    | true =>
      cases op with
      | backend o =>
        cases o with
        | get k =>
          cases r with
          | ok found =>
            cases h
            exact ⟨k, List.mem_cons_self⟩
          | error => cases h
        | _ => cases hop
      | l1Lookup | pendingGet => cases h
      | _ => cases hop

/-- The value that a query is answered with is in the envelope that was read last, if one was. -/
theorem LookedUp.envelope (h : LookedUp I X C call v done) (hb : lastRead done = some bytes) :
    ∃ envelope, CacheEnvelope.decode X bytes = .ok envelope ∧ C.fromSlice envelope.payload = .ok v := by
  cases h with
  | buffered transaction mode looked =>
    obtain ⟨rest, hl⟩ := looked.lastRead
    rw [hl] at hb
    cases hb
  | l1 looked =>
    obtain ⟨rest, hl⟩ := looked.lastRead
    rw [hl] at hb
    cases hb
  | l2 found =>
    obtain ⟨looked, -, decoded, -, value⟩ := found
    obtain ⟨rest, hl⟩ := looked.lastRead
    rw [hl] at hb
    cases hb
    exact ⟨_, decoded, value⟩

end

section
variable {B : CacheBackend} {T : Type} [DecidableEq T] {I : RbatisCacheInterceptor}
variable {X : Externals Bytes} {S : Rbs.Serde} {tasks : T → Task Rbs.Value} {state : B.State}
variable {A : Restriction T (Op Rbs.Value) Op.Res (Choice B Rbs.Value) (World B Rbs.Value)}
variable {d : Config T (Op Rbs.Value) Op.Res (World B Rbs.Value) (Reply Rbs.Value)}

/-- What is read back from the encoding of a value is that value if and only if it is faithful. -/
theorem eq_iff_faithful_of_codec {v w : Rbs.Value} {payload : Bytes}
    (written : S.codec.toVecNamed v = .ok payload) (read : S.codec.fromSlice payload = .ok w) :
    w = v ↔ v.Faithful S := by
  simp only [Rbs.Serde.codec, Rbs.Serde.write] at written read
  split at written
  · cases written
  · cases written
    split at read
    · cases read
    · next m rest hm =>
      cases read
      rw [← List.append_nil v.serialize.encode] at hm
      exact Rbs.Value.eq_iff_faithful hm

/-- Over an honest backend, everything that a `before` returns from the second-level cache was handed
to an `after` by the database in an encoding that some value has; and among the values that were
written with this encoding it equals exactly the faithful ones. -/
theorem l2_round_trip_iff (H : B.Honest) (codec : X.RoundTrips) (empty : H.abs state = .empty)
    (run : Reaches (machine B Rbs.Value T I) A (initial I X S.codec tasks state) d)
    {t : T} {call : Call Rbs.Value} {w : Rbs.Value} {q : History Rbs.Value T} {bytes : Bytes}
    (left : ⟨t, .leave (.before call (.query ())) (.ok (.return w)), ()⟩ :: q <:+ d.history)
    (read : lastRead (q.own t) = some bytes) :
    (∃ s call' key v, Filed I X S.codec q s call' key v ∧ Encodes X S.codec key v bytes) ∧
    ∀ s key v ttl r, ⟨s, .backend (.put key.digest bytes ttl), r⟩ ∈ q →
      Encodes X S.codec key v bytes → (w = v ↔ v.Faithful S) := by
  obtain ⟨-, layers⟩ := reaches_layers (filedSlot_kept codec) empty run
  have hq : q <:+ d.history := (List.suffix_cons _ _).trans left
  constructor
  · obtain ⟨k, hk⟩ := exists_get_of_lastRead read
    obtain ⟨p, hp⟩ := History.exists_suffix_of_mem_own hk
    obtain ⟨s, call', key, v, filed, -, encodes⟩ :=
      (layers.got _ _ (hp.trans hq) t k bytes rfl).suffix ((List.suffix_cons _ _).trans hp)
    exact ⟨s, call', key, v, filed, encodes⟩
  · intro s key v ttl r stored encodes
    obtain ⟨payload, lifetime, now, written, encoded⟩ := encodes
    obtain ⟨envelope, decoded, value⟩ := LookedUp.envelope (reaches_lookups run _ _ left) read
    rw [CacheEnvelope.decode_encode codec encoded] at decoded
    cases decoded
    exact eq_iff_faithful_of_codec written value

end
/-- Serialization in which signed integers become `I64`. -/
def Sample.serde : Rbs.Serde where
  refuses _ := none
  depthLimit := 1024
  display _ := "syntax error"
  visitSigned i := .i64 i
  visitSigned_keeps _ := .inl rfl
  sameKey a b := decide (a = b)

/-- One row, with one column. -/
def Sample.row (id : Rbs.Value) : Rbs.Value := .array [.map [(.string "id", id)]]

def Sample.rowCall (executorId : Int) : Call Rbs.Value :=
  ⟨0, ⟨executorId, "RBatisConnExecutor", .ok "sqlite"⟩, "SELECT 1", []⟩

/-- An environment in which the database answers with a row. -/
def Sample.answering (id : Rbs.Value) : Choice Sample.Backend Rbs.Value where
  backend := ⟨[], 5⟩
  now := 5
  instant := 5
  contended := false
  elapsed := false
  queried := .ok (Sample.row id)
  executed := .ok ⟨0⟩

def Sample.rowKey : CacheKey where
  digest := match CacheKey.build Sample.externals
      (Sample.interceptor.buildKeyInput Sample.serde.codec (Sample.rowCall 1)) 0 with
    | .ok key => key.digest
    | .error _ => ""
  nameSpace := "ns"
  generation := 0
  tableTags := ∅

/-- What is stored for a row. -/
def Sample.rowBytes (id : Rbs.Value) : Bytes :=
  match (CacheEnvelope.new Sample.rowKey (Sample.row id).serialize.encode (.fromMins 5) 5).encode
      Sample.externals with
  | .ok bytes => bytes
  | .error _ => []

abbrev Sample.rowSteps := machine Sample.Backend Rbs.Value Bool Sample.interceptor

/-- Two executors that ask for the same row. -/
abbrev Sample.rowStart : Config Bool (Op Rbs.Value) Op.Res (World Sample.Backend Rbs.Value)
    (Reply Rbs.Value) :=
  initial Sample.interceptor Sample.externals Sample.serde.codec
    (fun second => .statement (.query (Sample.rowCall (if second then 2 else 1))))
    (LocalBackend.withConfig {})

theorem Sample.row_encodes (id : Rbs.Value) :
    Encodes Sample.externals Sample.serde.codec Sample.rowKey (Sample.row id) (Sample.rowBytes id) :=
  ⟨_, .fromMins 5, 5, rfl, rfl⟩

/-- An unsigned column comes back as it was. -/
theorem unsigned_column_returns :
    ∃ (d : Config Bool (Op Rbs.Value) Op.Res (World Sample.Backend Rbs.Value) (Reply Rbs.Value))
      (q : History Rbs.Value Bool),
      Reaches Sample.rowSteps Restriction.none Sample.rowStart d ∧
      ⟨true, .leave (.before (Sample.rowCall 2) (.query ())) (.ok (.return (Sample.row (.u64 7)))), ()⟩ ::
        q <:+ d.history ∧ (Sample.row (.u64 7)).Faithful Sample.serde := by
  let left : Event Bool (Op Rbs.Value) Op.Res :=
    ⟨true, .leave (.before (Sample.rowCall 2) (.query ())) (.ok (.return (Sample.row (.u64 7)))), ()⟩
  let stored : Event Bool (Op Rbs.Value) Op.Res :=
    ⟨false, .backend (.put Sample.rowKey.digest (Sample.rowBytes (.u64 7)) (.fromMins 5)), .ok ()⟩
  obtain ⟨d, run, seen⟩ := play_observed (M := Sample.rowSteps) (A := Restriction.none)
    (c := Sample.rowStart)
    ((List.replicate 19 false ++ List.replicate 11 true).map (·, Sample.answering (.u64 7)))
    (fun d => decide (d.history.head? = some left) && decide (stored ∈ d.history.tail) &&
      decide (lastRead (History.own d.history.tail true) = some (Sample.rowBytes (.u64 7))))
    (by decide +kernel)
  simp only [Bool.and_eq_true, decide_eq_true_eq] at seen
  obtain ⟨⟨head, put⟩, read⟩ := seen
  have hleft : left :: d.history.tail <:+ d.history := History.suffix_of_head? head
  have back := l2_round_trip_iff (LocalBackend.healthy Sample.hash).honest Sample.externals_roundTrips
    rfl run hleft read
  exact ⟨d, d.history.tail, run, hleft,
    (back.2 false _ _ _ _ put (Sample.row_encodes _)).mp rfl⟩

/-- A signed column that is not negative comes back unsigned. -/
theorem signed_column_changes :
    ∃ (d : Config Bool (Op Rbs.Value) Op.Res (World Sample.Backend Rbs.Value) (Reply Rbs.Value))
      (q : History Rbs.Value Bool),
      Reaches Sample.rowSteps Restriction.none Sample.rowStart d ∧
      ⟨true, .leave (.before (Sample.rowCall 2) (.query ())) (.ok (.return (Sample.row (.u64 7)))), ()⟩ ::
        q <:+ d.history ∧
      lastRead (q.own true) = some (Sample.rowBytes (.i32 7)) ∧
      ⟨false, .backend (.put Sample.rowKey.digest (Sample.rowBytes (.i32 7)) (.fromMins 5)), .ok ()⟩ ∈
        q ∧
      Encodes Sample.externals Sample.serde.codec Sample.rowKey (Sample.row (.i32 7))
        (Sample.rowBytes (.i32 7)) ∧
      Sample.row (.u64 7) ≠ Sample.row (.i32 7) := by
  let left : Event Bool (Op Rbs.Value) Op.Res :=
    ⟨true, .leave (.before (Sample.rowCall 2) (.query ())) (.ok (.return (Sample.row (.u64 7)))), ()⟩
  let stored : Event Bool (Op Rbs.Value) Op.Res :=
    ⟨false, .backend (.put Sample.rowKey.digest (Sample.rowBytes (.i32 7)) (.fromMins 5)), .ok ()⟩
  obtain ⟨d, run, seen⟩ := play_observed (M := Sample.rowSteps) (A := Restriction.none)
    (c := Sample.rowStart)
    ((List.replicate 19 false ++ List.replicate 11 true).map (·, Sample.answering (.i32 7)))
    (fun d => decide (d.history.head? = some left) && decide (stored ∈ d.history.tail) &&
      decide (lastRead (History.own d.history.tail true) = some (Sample.rowBytes (.i32 7))))
    (by decide +kernel)
  simp only [Bool.and_eq_true, decide_eq_true_eq] at seen
  obtain ⟨⟨head, put⟩, read⟩ := seen
  exact ⟨d, d.history.tail, run, History.suffix_of_head? head, read, put, Sample.row_encodes _, by decide⟩

end RbatisInterceptor
end RbatisCache
