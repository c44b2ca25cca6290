import RbatisCache.Interleaving.Counting
import RbatisCache.Interleaving.Protocol
import RbatisCache.Moka.Model
import RbatisCache.Spi.Sample

/-! The generations of the backend over moka. The counter only grows, but what is read back are the
records that the bumps leave in moka's cache. -/
namespace RbatisCache.Moka
open Interleaving
open Interleaving.Prog (bind_eq perform_bind pure_eq)
open MokaCacheBackend

section
variable {T : Type} (blake3 : Bytes → String) (M : MokaCacheBackend)

abbrev History (T : Type) := Interleaving.History T Op Op.Res

/-- What a call has done before each operation. -/
def rule (c : BackendOp) (done : List (Sigma Op.Res)) : Op → Prop
  | .cacheGet key => done = [] ∧ ((∃ k, c = .get k ∧ key = M.entryKey k) ∨
      ∃ n, c = .generation n ∧ key = M.generationKey blake3 n)
  | .cacheInsert key value => (∃ k, key = M.entryKey k) ∨
      ∃ n old, c = .bumpGeneration n ∧ key = M.generationKey blake3 n ∧
        value = toLeBytes (saturatingAdd old 1) ∧ done = [⟨.fetchAdd, old⟩]
  | .fetchAdd => done = [] ∧ ∃ n, c = .bumpGeneration n

/-- The number that a `generation` call makes of what it has found. -/
def numberOf (found : Option Bytes) : UInt64 := (found.bind ofRecord).getD 0

/-- What a call has done when it returns. -/
def Answered (c : BackendOp) (reply : Reply) (done : List (Sigma Op.Res)) : Prop :=
  (∀ n v, c = .generation n → reply = ⟨.generation n, .ok v⟩ →
    ∃ found, ⟨.cacheGet (M.generationKey blake3 n), found⟩ ∈ done ∧ v = numberOf found) ∧
  ∀ n v, c = .bumpGeneration n → reply = ⟨.bumpGeneration n, .ok v⟩ →
    ⟨.cacheInsert (M.generationKey blake3 n) (toLeBytes v), ()⟩ ∈ done

/-- A number that a call on the namespace has come to: a `generation` with its read, a
`bump_generation` with its insert. -/
inductive Reported (calls : T → BackendOp) (n : String) (v : UInt64) (h : History T) : Prop
  | read {t : T} {found : Option Bytes} (call : calls t = .generation n)
    (event : ⟨t, .cacheGet (M.generationKey blake3 n), found⟩ ∈ h) (number : v = numberOf found)
  | bumped {t : T} (call : calls t = .bumpGeneration n)
    (event : ⟨t, .cacheInsert (M.generationKey blake3 n) (toLeBytes v), ()⟩ ∈ h)

def fetchAdds (h : History T) : Nat := h.countP fun e => decide (e.op = .fetchAdd)

/-- No generation record is evicted or expires, the records of a namespace are inserted in the order
of their increments, and there are fewer than 2^64 of these. -/
def InOrder : Restriction T Op Op.Res Choice World := fun t op ch _ h =>
  (∀ n, M.generationKey blake3 n ∉ ch.lost) ∧
  match op with
  | .fetchAdd => fetchAdds h + 1 < 2 ^ 64
  | .cacheInsert key _ => ∀ s value old new, ⟨s, .cacheInsert key value, ()⟩ ∈ h →
      ⟨s, .fetchAdd, old⟩ ∈ h → ⟨t, .fetchAdd, new⟩ ∈ h →
      h.Precedes ⟨s, .fetchAdd, old⟩ ⟨t, .fetchAdd, new⟩
  | .cacheGet _ => True

private theorem obeys_call (c : BackendOp) : (M.call blake3 c).Obeys (rule blake3 M c)
    (fun answer done => Answered blake3 M c ⟨c, answer⟩ done) [] := by
  cases c with
  | get k =>
    refine ⟨⟨rfl, .inl ⟨k, rfl, rfl⟩⟩, fun found => ⟨?_, ?_⟩⟩
    · exact fun n v hc => by cases hc
    · exact fun n v hc => by cases hc
  | put k value ttl =>
    refine ⟨.inl ⟨k, rfl⟩, fun _ => ⟨?_, ?_⟩⟩
    · exact fun n v hc => by cases hc
    · exact fun n v hc => by cases hc
  | generation n =>
    refine ⟨⟨rfl, .inr ⟨n, rfl, rfl⟩⟩, fun found => ⟨?_, ?_⟩⟩
    · intro m v hc hr
      cases hc
      cases hr
      exact ⟨found, List.mem_singleton_self _, rfl⟩
    · exact fun m v hc => by cases hc
  | bumpGeneration n =>
    refine ⟨⟨rfl, n, rfl⟩, fun old => ⟨.inr ⟨n, old, rfl, rfl, rfl, rfl⟩, fun _ => ⟨?_, ?_⟩⟩⟩
    · exact fun m v hc => by cases hc
    · intro m v hc hr
      cases hc
      cases hr
      exact List.mem_cons_self

end

section
variable {T : Type} {blake3 : Bytes → String} {M : MokaCacheBackend} {calls : T → BackendOp}
variable {w u : World} {h s q : History T} {t : T} {op : Op} {r : op.Res} {ch : Choice}

private theorem fetchAdds_cons_of_ne (h : History T) (ne : op ≠ .fetchAdd) :
    fetchAdds (⟨t, op, r⟩ :: h) = fetchAdds h := by
  simp [fetchAdds, ne]

private theorem fetchAdds_cons_self (h : History T) (old : UInt64) :
    fetchAdds (⟨t, .fetchAdd, old⟩ :: h) = fetchAdds h + 1 := by
  simp [fetchAdds]

/-- A record in which no insert of the namespace has left a higher number. -/
def Covers (M : MokaCacheBackend) (blake3 : Bytes → String) (n : String) (number : UInt64)
    (h : History T) : Prop :=
  ∀ t v, ⟨t, .cacheInsert (M.generationKey blake3 n) (toLeBytes v), ()⟩ ∈ h → v ≤ number

/-- A namespace has a record as soon as one was inserted, and that the highest one. -/
structure Recorded (M : MokaCacheBackend) (blake3 : Bytes → String) (w : World) (h : History T) :
    Prop where
  record : ∀ n stored, w.cache.lookup (M.generationKey blake3 n) = some stored →
    ∃ t v, stored.value = toLeBytes v ∧ Covers M blake3 n v h ∧
      ⟨t, .cacheInsert (M.generationKey blake3 n) (toLeBytes v), ()⟩ ∈ h
  kept : ∀ n, w.cache.lookup (M.generationKey blake3 n) = none →
    ∀ t value, ⟨t, .cacheInsert (M.generationKey blake3 n) value, ()⟩ ∉ h

/-- The counter, the records and what was read of them. -/
structure Records (M : MokaCacheBackend) (blake3 : Bytes → String) (w : World) (h : History T) : Prop
    extends Recorded M blake3 w h where
  counter : w.generation.toNat = fetchAdds h
  counted : h.Always fun e s => ∀ t old, e = ⟨t, .fetchAdd, old⟩ → old.toNat = fetchAdds s
  reads : h.Always fun e s => ∀ t n found,
    e = ⟨t, .cacheGet (M.generationKey blake3 n), found⟩ → Covers M blake3 n (numberOf found) s ∧
      (numberOf found = 0 ∨ ∃ t', ⟨t', .cacheInsert (M.generationKey blake3 n)
        (toLeBytes (numberOf found)), ()⟩ ∈ s)

private theorem numberOf_toLeBytes (v : UInt64) : numberOf (some (toLeBytes v)) = v := by
  rw [numberOf, Option.bind_some, ofRecord_toLeBytes, Option.getD_some]

/-- What is kept is still there. -/
theorem lookup_housekeeping {lost : List String} {k : String} (kept : k ∉ lost)
    (m : DashMap String Stored) :
    (m.retain fun k _ => !lost.contains k).lookup k = m.lookup k := by
  cases hk : m.lookup k with
  | none =>
    by_contra present
    obtain ⟨stored, hs⟩ := Option.ne_none_iff_exists'.mp present
    rw [DashMap.lookup_of_retain hs] at hk
    cases hk
  | some stored => exact DashMap.lookup_retain hk (by simp [kept])

theorem Covers.cons {n : String} {number : UInt64} (covers : Covers M blake3 n number h)
    (other : ∀ value, op ≠ .cacheInsert (M.generationKey blake3 n) value) :
    Covers M blake3 n number (⟨t, op, r⟩ :: h) := by
  intro s v hv
  rcases List.mem_cons.mp hv with same | hv
  · cases same
    exact absurd rfl (other _)
  · exact covers s v hv

/-- An insert of a record comes after the increment with its number. -/
theorem incremented [DecidableEq T] (lawful : Lawful (fun t => rule blake3 M (calls t)) h) {n : String}
    {value : Bytes} (inserted : ⟨t, .cacheInsert (M.generationKey blake3 n) value, ()⟩ ∈ h) :
    ∃ old, value = toLeBytes (saturatingAdd old 1) ∧ ⟨t, .fetchAdd, old⟩ ∈ h := by
  obtain ⟨s, hs⟩ := History.exists_suffix_of_mem inserted
  have suffix : s <:+ h := (List.suffix_cons _ _).trans hs
  rcases lawful _ _ hs with ⟨k, hk⟩ | ⟨m, old, -, -, hv, done⟩
  · exact absurd hk.symm (entryKey_ne_generationKey k n)
  · refine ⟨old, hv, suffix.subset (History.mem_own.mp ?_)⟩
    rw [done]
    exact List.mem_singleton_self _

/-- What an increment makes of the counter. -/
def Incremented (e : Event T Op Op.Res) (n : Nat) : Prop :=
  ∃ t old, e = ⟨t, .fetchAdd, old⟩ ∧ n = old.toNat + 1

theorem Records.numbers (records : Records M blake3 w h) :
    h.Numbers (fun e => decide (e.op = .fetchAdd)) Incremented := by
  rintro e s hs n ⟨t, old, rfl, rfl⟩
  exact ⟨decide_eq_true rfl, congrArg (· + 1) (records.counted _ _ hs t old rfl)⟩

theorem Records.lt_of_precedes (records : Records M blake3 w h) {old new : UInt64} {t' : T}
    (order : h.Precedes ⟨t, .fetchAdd, old⟩ ⟨t', .fetchAdd, new⟩) : old.toNat < new.toNat :=
  Nat.lt_of_succ_lt_succ
    (records.numbers.lt_of_precedes order ⟨t, old, rfl, rfl⟩ ⟨t', new, rfl, rfl⟩)

/-- Operations that insert no record. -/
theorem Recorded.other (recorded : Recorded M blake3 w h)
    (same : ∀ n, u.cache.lookup (M.generationKey blake3 n) =
      w.cache.lookup (M.generationKey blake3 n))
    (other : ∀ n value, op ≠ .cacheInsert (M.generationKey blake3 n) value) :
    Recorded M blake3 u (⟨t, op, r⟩ :: h) where
  record n stored hl := by
    rw [same] at hl
    obtain ⟨t', v, hv, covers, source⟩ := recorded.record n stored hl
    exact ⟨t', v, hv, covers.cons (other n), List.mem_cons_of_mem _ source⟩
  kept n hl s value hs := by
    rw [same] at hl
    rcases List.mem_cons.mp hs with head | hs
    · cases head
      exact other n value rfl
    · exact recorded.kept n hl s value hs

/-- A record is inserted that is at least as high as all that were inserted for the namespace. -/
theorem Recorded.insert (recorded : Recorded M blake3 w h) {m : String} {v : UInt64}
    (kept : ∀ n, M.generationKey blake3 n ∉ ch.lost) (covers : Covers M blake3 m v h) :
    Recorded M blake3 (act (.cacheInsert (M.generationKey blake3 m) (toLeBytes v)) ch w).2
      (⟨t, .cacheInsert (M.generationKey blake3 m) (toLeBytes v), ()⟩ :: h) where
  record n stored hl := by
    by_cases same : M.generationKey blake3 n = M.generationKey blake3 m
    · rw [act, same, AList.lookup_insert, Option.some_inj] at hl
      subst hl
      refine ⟨t, v, rfl, fun s v' hv => ?_, ?_⟩
      · rw [same] at hv
        rcases List.mem_cons.mp hv with head | hv
        · cases toLeBytes_inj (Op.cacheInsert.inj (Event.mk.inj head).2.1).2
          exact UInt64.le_refl _
        · exact covers s v' hv
      · rw [same]
        exact List.mem_cons_self
    · rw [act, AList.lookup_insert_ne same, lookup_housekeeping (kept n)] at hl
      obtain ⟨t', v', hv, covers', source⟩ := recorded.record n stored hl
      refine ⟨t', v', hv, covers'.cons fun value same' => ?_, List.mem_cons_of_mem _ source⟩
      exact same (Op.cacheInsert.inj same').1.symm
  kept n hl s value' hs := by
    by_cases same : M.generationKey blake3 n = M.generationKey blake3 m
    · rw [act, same, AList.lookup_insert] at hl
      cases hl
    · rw [act, AList.lookup_insert_ne same, lookup_housekeeping (kept n)] at hl
      rcases List.mem_cons.mp hs with head | hs
      · exact same (Op.cacheInsert.inj (Event.mk.inj head).2.1).1
      · exact recorded.kept n hl s value' hs

/-- What a read finds. -/
theorem Records.found (records : Records M blake3 w h) (kept : ∀ n, M.generationKey blake3 n ∉ ch.lost)
    (n : String) {found : Option Bytes}
    (hf : found = (act (.cacheGet (M.generationKey blake3 n)) ch w).1) :
    Covers M blake3 n (numberOf found) h ∧ (numberOf found = 0 ∨
      ∃ t', ⟨t', .cacheInsert (M.generationKey blake3 n) (toLeBytes (numberOf found)), ()⟩ ∈ h) := by
  subst hf
  rw [act, lookup_housekeeping (kept n)]
  cases hl : w.cache.lookup (M.generationKey blake3 n) with
  | none => exact ⟨fun t' v hv => absurd hv (records.kept n hl t' _), .inl rfl⟩
  | some stored =>
    obtain ⟨t', v, hv, covers, source⟩ := records.record n stored hl
    rw [Option.map_some, hv, numberOf_toLeBytes]
    exact ⟨covers, .inr ⟨t', source⟩⟩

/-- The number of a bump whose predecessors have inserted theirs. -/
theorem Records.covers [DecidableEq T] (records : Records M blake3 w h)
    (lawful : Lawful (fun t => rule blake3 M (calls t)) h) {n : String} {old : UInt64}
    (incremented' : ⟨t, .fetchAdd, old⟩ ∈ h)
    (order : ∀ s value old' new, ⟨s, .cacheInsert (M.generationKey blake3 n) value, ()⟩ ∈ h →
      ⟨s, .fetchAdd, old'⟩ ∈ h → ⟨t, .fetchAdd, new⟩ ∈ h →
      h.Precedes ⟨s, .fetchAdd, old'⟩ ⟨t, .fetchAdd, new⟩) :
    Covers M blake3 n (saturatingAdd old 1) h := by
  intro s v hv
  obtain ⟨old', number, first⟩ := incremented lawful hv
  have lt := records.lt_of_precedes (order s _ old' old hv first incremented')
  have one : (1 : UInt64).toNat = 1 := rfl
  rw [toLeBytes_inj number, UInt64.le_iff_toNat_le, toNat_saturatingAdd, toNat_saturatingAdd, one]
  omega

private theorem records_preserved [DecidableEq T] : PreservesLawful (machine T) (InOrder blake3 M)
    (fun t => rule blake3 M (calls t)) (Records M blake3) := by
  intro t op ch w h r u lawful records allowed permitted performed
  obtain ⟨hr, rfl⟩ := Prod.mk.inj (Option.some.inj performed)
  have kept := permitted.1
  cases op with
  | cacheGet key =>
    refine ⟨records.toRecorded.other (fun n => lookup_housekeeping (kept n) _) (by simp), ?_, ?_, ?_⟩
    · exact records.counter.trans (fetchAdds_cons_of_ne h (by simp)).symm
    · exact records.counted.cons fun s old he => by cases he
    · refine records.reads.cons fun s n found he => ?_
      cases he
      exact records.found kept n hr.symm
  | fetchAdd =>
    have few : w.generation.toNat + 1 < 2 ^ 64 := by
      rw [records.counter]
      exact permitted.2
    refine ⟨records.toRecorded.other (fun n => lookup_housekeeping (kept n) _) (by simp), ?_, ?_, ?_⟩
    · rw [fetchAdds_cons_self, ← records.counter]
      exact (UInt64.toNat_add _ _).trans (Nat.mod_eq_of_lt few)
    · refine records.counted.cons fun s old he => ?_
      cases he
      rw [← hr]
      exact records.counter
    · exact records.reads.cons fun s n found he => by cases he
  | cacheInsert key value =>
    refine ⟨?_, ?_, ?_, ?_⟩
    · rcases allowed with ⟨k, rfl⟩ | ⟨n, old, -, rfl, rfl, done⟩
      · refine records.toRecorded.other (fun n => ?_) fun n value' same => ?_
        · exact (AList.lookup_insert_ne (entryKey_ne_generationKey k n).symm).trans
            (lookup_housekeeping (kept n) _)
        · exact entryKey_ne_generationKey k n (Op.cacheInsert.inj same).1
      · have incremented' : ⟨t, .fetchAdd, old⟩ ∈ h := by
          apply History.mem_own.mp
          rw [done]
          exact List.mem_singleton_self _
        exact records.toRecorded.insert kept (records.covers lawful incremented' permitted.2)
    · exact records.counter.trans (fetchAdds_cons_of_ne h (by simp)).symm
    · exact records.counted.cons fun s old he => by cases he
    · exact records.reads.cons fun s n found he => by cases he

private theorem obeys_initial [DecidableEq T] : (initial blake3 M calls).Obeys
    (fun t => rule blake3 M (calls t)) (fun t => Answered blake3 M (calls t)) := by
  intro t
  exact Prog.Obeys.bind (obeys_call blake3 M (calls t))

private theorem records_initial [DecidableEq T] : Records M blake3 (initial blake3 M calls).world
    (initial blake3 M calls).history where
  record n stored hl := by cases hl
  kept n hl t value hs := by cases hs
  counter := rfl
  counted := History.always_nil
  reads := History.always_nil

/-- In every run in which no generation record is lost and the records of a namespace are inserted in
the order of their increments, fewer than 2^64 of these: a `generation` call reads no number that is
lower than one that a call on the namespace has come to before; and the numbers that calls return are
those that they have come to. -/
theorem generations_never_go_back [DecidableEq T] {d : Config T Op Op.Res World Reply}
    (run : Reaches (machine T) (InOrder blake3 M) (initial blake3 M calls) d) {n : String} :
    (∀ t found s, ⟨t, .cacheGet (M.generationKey blake3 n), found⟩ :: s <:+ d.history →
      ∀ v, Reported blake3 M calls n v s → v ≤ numberOf found) ∧
    ∀ t v, calls t = .generation n ∧ d.returned t = some ⟨.generation n, .ok v⟩ ∨
      calls t = .bumpGeneration n ∧ d.returned t = some ⟨.bumpGeneration n, .ok v⟩ →
      Reported blake3 M calls n v d.history := by
  obtain ⟨-, records, obeys⟩ := run.lawful records_preserved obeys_initial rfl records_initial
  constructor
  · intro t found s read v reported
    obtain ⟨covers, -⟩ := records.reads _ _ read t n found rfl
    cases reported with
    | @read t' found' _ event number =>
      subst number
      obtain ⟨q, hq⟩ := History.exists_suffix_of_mem event
      have suffix : q <:+ s := (List.suffix_cons _ _).trans hq
      obtain ⟨-, zero | ⟨t'', inserted⟩⟩ :=
        records.reads _ _ (hq.trans ((List.suffix_cons _ _).trans read)) t' n found' rfl
      · rw [zero]
        exact UInt64.zero_le
      · exact covers t'' _ (suffix.subset inserted)
    | bumped _ event => exact covers _ _ event
  · rintro t v (⟨call, returned⟩ | ⟨call, returned⟩)
    · have answered := obeys.returned (Config.returned_eq_some.mp returned)
      obtain ⟨found, event, number⟩ := answered.1 n v call rfl
      exact .read call (History.mem_own.mp event) number
    · have answered := obeys.returned (Config.returned_eq_some.mp returned)
      exact .bumped call (History.mem_own.mp (answered.2 n v call rfl))

end
/-! ### Runs -/

def Sample.moka : MokaCacheBackend := ⟨"moka", {}⟩

/-- A bump of a namespace and a read of it. -/
def Sample.bumpAndRead : Bool → BackendOp
  | false => .bumpGeneration "ns"
  | true => .generation "ns"

abbrev Sample.mokaStart {T : Type} (calls : T → BackendOp) : Config T Op Op.Res World Reply :=
  initial Sample.hash Sample.moka calls

/-- Nothing is lost, and no key is written twice. -/
def Sample.calm {T : Type} : Restriction T Op Op.Res Choice World := fun _ op ch _ h =>
  ch.lost = [] ∧ fetchAdds h + 1 < 2 ^ 64 ∧ ∀ e ∈ h, match op, e.op with
    | .cacheInsert key _, .cacheInsert key' _ => key ≠ key'
    | _, _ => True

instance {T : Type} (t : T) (op : Op) (ch : Choice) (w : World) (h : History T) :
    Decidable (Sample.calm t op ch w h) := by
  unfold Sample.calm
  have (e : Event T Op Op.Res) : Decidable (match op, e.op with
      | .cacheInsert key _, .cacheInsert key' _ => key ≠ key'
      | _, _ => True) := by
    split <;> infer_instance
  infer_instance

private theorem inOrder_of_calm {T : Type} {t : T} {op : Op} {ch : Choice} {w : World} {h : History T}
    (calm : Sample.calm t op ch w h) : InOrder Sample.hash Sample.moka t op ch w h := by
  obtain ⟨nothing, few, once⟩ := calm
  refine ⟨fun n => ?_, ?_⟩
  · rw [nothing]
    exact List.not_mem_nil
  · cases op with
    | cacheGet key => trivial
    | fetchAdd => exact few
    | cacheInsert key value => exact fun s value' old new inserted => absurd rfl (once _ inserted)

/-- The record of the namespace. -/
def Sample.record : String := Sample.moka.generationKey Sample.hash "ns"

/-- A bump is read. -/
theorem bump_read : ∃ (d : Config Bool Op Op.Res World Reply) (s : History Bool)
    (found : Option Bytes), ⟨true, .cacheGet Sample.record, found⟩ :: s <:+ d.history ∧
    Reported Sample.hash Sample.moka Sample.bumpAndRead "ns" 1 s ∧ 1 ≤ numberOf found := by
  obtain ⟨d, run, seen⟩ := play_observed (M := machine Bool) (A := Sample.calm)
    (c := Sample.mokaStart Sample.bumpAndRead) [(false, ⟨5, []⟩), (false, ⟨5, []⟩), (true, ⟨5, []⟩)]
    (fun d => decide (d.history.head? = some ⟨true, .cacheGet Sample.record, some (toLeBytes 1)⟩) &&
      decide (⟨false, .cacheInsert Sample.record (toLeBytes 1), ()⟩ ∈ d.history.tail))
    (by decide +kernel)
  simp only [Bool.and_eq_true, decide_eq_true_eq] at seen
  obtain ⟨head, inserted⟩ := seen
  have read := History.suffix_of_head? head
  have reported : Reported Sample.hash Sample.moka Sample.bumpAndRead "ns" 1 d.history.tail :=
    .bumped (t := false) rfl inserted
  have back := generations_never_go_back (n := "ns") (run.weaken fun _ _ _ _ _ => inOrder_of_calm)
  exact ⟨d, _, _, read, reported, back.1 _ _ _ read 1 reported⟩

/-- Two bumps and two reads. -/
def Sample.bumpsAndReads : Fin 4 → BackendOp := fun t =>
  if t.val < 2 then .bumpGeneration "ns" else .generation "ns"

/-- A record is evicted; and a bump inserts its number after a later one. -/
theorem records_go_back :
    (∃ (d : Config Bool Op Op.Res World Reply) (s : History Bool),
      Reaches (machine Bool) Restriction.none (Sample.mokaStart Sample.bumpAndRead) d ∧
      ⟨true, .cacheGet Sample.record, none⟩ :: s <:+ d.history ∧
      Reported Sample.hash Sample.moka Sample.bumpAndRead "ns" 1 s ∧
      d.returned false = some ⟨.bumpGeneration "ns", .ok 1⟩ ∧
      d.returned true = some ⟨.generation "ns", .ok 0⟩) ∧
    ∃ (d : Config (Fin 4) Op Op.Res World Reply) (s : History (Fin 4)),
      Reaches (machine (Fin 4)) Restriction.none (Sample.mokaStart Sample.bumpsAndReads) d ∧
      ⟨3, .cacheGet Sample.record, some (toLeBytes 1)⟩ :: s <:+ d.history ∧
      Reported Sample.hash Sample.moka Sample.bumpsAndReads "ns" 2 s ∧
      d.returned 2 = some ⟨.generation "ns", .ok 2⟩ ∧
      d.returned 3 = some ⟨.generation "ns", .ok 1⟩ := by
  constructor
  · obtain ⟨d, run, seen⟩ := play_observed (M := machine Bool) (A := Restriction.none)
      (c := Sample.mokaStart Sample.bumpAndRead)
      [(false, ⟨5, []⟩), (false, ⟨5, []⟩), (true, ⟨5, [Sample.record]⟩)]
      (fun d => decide (d.history.head? = some ⟨true, .cacheGet Sample.record, none⟩) &&
        decide (⟨false, .cacheInsert Sample.record (toLeBytes 1), ()⟩ ∈ d.history.tail) &&
        decide (d.returned false = some ⟨.bumpGeneration "ns", .ok 1⟩) &&
        decide (d.returned true = some ⟨.generation "ns", .ok 0⟩))
      (by decide +kernel)
    simp only [Bool.and_eq_true, decide_eq_true_eq] at seen
    obtain ⟨⟨⟨head, inserted⟩, bumped⟩, read⟩ := seen
    exact ⟨d, _, run, History.suffix_of_head? head, .bumped (t := false) rfl inserted, bumped, read⟩
  · obtain ⟨d, run, seen⟩ := play_observed (M := machine (Fin 4)) (A := Restriction.none)
      (c := Sample.mokaStart Sample.bumpsAndReads)
      ([0, 1, 1, 2, 0, 3].map (·, ⟨5, []⟩))
      (fun d => decide (d.history.head? = some ⟨3, .cacheGet Sample.record, some (toLeBytes 1)⟩) &&
        decide (⟨1, .cacheInsert Sample.record (toLeBytes 2), ()⟩ ∈ d.history.tail) &&
        decide (d.returned 2 = some ⟨.generation "ns", .ok 2⟩) &&
        decide (d.returned 3 = some ⟨.generation "ns", .ok 1⟩))
      (by decide +kernel)
    simp only [Bool.and_eq_true, decide_eq_true_eq] at seen
    obtain ⟨⟨⟨head, inserted⟩, earlier⟩, later⟩ := seen
    exact ⟨d, _, run, History.suffix_of_head? head, .bumped (t := 1) rfl inserted, earlier, later⟩

end RbatisCache.Moka
