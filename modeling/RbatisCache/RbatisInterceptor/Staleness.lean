import RbatisCache.RbatisInterceptor.Generations
import RbatisCache.RbatisInterceptor.Sample

/-! How old the values in the backend are. A result is filed under the generation that `after`
reads, which is older than the result only if no DML has bumped it in between. -/
namespace RbatisCache.RbatisInterceptor
open Interleaving
open RbatisCacheInterceptor

section
variable {V T : Type}

def isRead [DecidableEq T] (t : T) (e : Event T (Op V) Op.Res) : Bool :=
  match e.op with
  | .databaseQuery _ => e.task == t
  | _ => false

def isWrite [DecidableEq T] (t : T) (e : Event T (Op V) Op.Res) : Bool :=
  match e.op with
  | .databaseExec _ => e.task == t
  | _ => false

/-- When the `after` of a query reads the generation, all who have bumped it had written to the
database before the query read from it. -/
def ReadsAfterWrites [DecidableEq T] {B : CacheBackend} :
    Restriction T (Op V) Op.Res (Choice B V) (World B V) :=
  fun t op _ _ h => ∀ n ∈ op.readGeneration, History.Always (fun e s => isRead t e = true →
    ∀ b ∈ h, isBump n b = true → ∃ x ∈ s, isWrite b.task x = true) h

/-- Few bumps, and the order of reads and writes. -/
def Ordered [DecidableEq T] {B : CacheBackend} :
    Restriction T (Op V) Op.Res (Choice B V) (World B V) :=
  fun t op ch w h => FewBumps t op ch w h ∧ ReadsAfterWrites t op ch w h

instance [DecidableEq T] {B : CacheBackend} (t : T) (op : Op V) (ch : Choice B V) (w : World B V)
    (h : History V T) : Decidable (Ordered t op ch w h) :=
  inferInstanceAs (Decidable (FewBumps t op ch w h ∧ ∀ n ∈ op.readGeneration,
    History.Always (fun e s => isRead t e = true →
      ∀ b ∈ h, isBump n b = true → ∃ x ∈ s, isWrite b.task x = true) h))

variable [DecidableEq T] {B : CacheBackend} {H : B.Healthy} {I : RbatisCacheInterceptor}
variable {X : Externals Bytes} {C : ValueCodec V} {statements : T → Statement V} {state : B.State}
variable {d : Config T (Op V) Op.Res (World B V) (Reply V)}

private theorem ordered_permitted {tasks : T → Task V}
    (run : Reaches (machine B V T I) Ordered (initial I X C tasks state) d) :
    d.history.Always fun event s => ∀ t n g, event = ⟨t, .backend (.generation n), g⟩ →
      History.Always (fun e q => isRead t e = true →
        ∀ b ∈ s, isBump n b = true → ∃ x ∈ q, isWrite b.task x = true) s := by
  refine run.permitted (fun t op ch w h r u ha hm t' n g he => ?_) rfl
  cases he
  exact ha.2 n rfl

/-- The moments at which a query has read the database and then, in `after`, the generation. -/
theorem Filed.moments {h : History V T} {t : T} {call : Call V} {key : CacheKey} {v : V}
    (hl : Lawful (fun t => rule I X C (.statement (statements t))) h)
    (hf : Filed I X C h t call key v) : ∃ q s,
      ⟨t, .backend (.generation I.nameSpace), .ok key.generation⟩ :: q <:+ h ∧
      ⟨t, .enter (.after call (.query (.ok v))), ()⟩ ∈ q ∧
      ⟨t, .databaseQuery call, .ok v⟩ :: s <:+ q := by
  obtain ⟨⟨rest, l, hr⟩, -, -⟩ := hf
  obtain ⟨q, hq, hown⟩ := History.exists_suffix_of_own hr.symm
  obtain ⟨p, hp, -⟩ := History.exists_suffix_of_own (show History.own q t = [] ++ _ from hown)
  have hph := hp.trans ((List.suffix_cons _ _).trans hq)
  obtain ⟨rest', hread⟩ := read_of_entered hl rfl hph
  obtain ⟨s, hs, -⟩ := History.exists_suffix_of_own (show History.own p t = [] ++ _ from hread)
  exact ⟨q, s, hq, hp.subset List.mem_cons_self, hs.trans ((List.suffix_cons _ _).trans hp)⟩

/-- Every envelope in the backend holds a value that was read after the writes of all DMLs whose
bumps led to its generation or an earlier one, in every run in which the queries re-read the
generation in order. -/
theorem stored_value_follows_writes (empty : H.abs state = .empty) (codec : X.RoundTrips)
    (run : Reaches (machine B V T I) Ordered
      (initial I X C (fun t => .statement (statements t)) state) d)
    {k : String} {b : Bytes} {envelope : CacheEnvelope Bytes}
    (stored : (H.abs d.world.backend).content k = some b)
    (decoded : CacheEnvelope.decode X b = .ok envelope) :
    ∃ reader call v s, C.toVecNamed v = .ok envelope.payload ∧
      ⟨reader, .databaseQuery call, .ok v⟩ :: s <:+ d.history ∧
      (∀ writer m, ⟨writer, .backend (.bumpGeneration I.nameSpace), .ok m⟩ ∈ d.history →
        m ≤ envelope.generation → ∃ c r, ⟨writer, .databaseExec c, r⟩ ∈ s) ∧
      (envelope.generation = (H.abs d.world.backend).counter I.nameSpace →
        ∀ writer m, ⟨writer, .backend (.bumpGeneration I.nameSpace), .ok m⟩ ∈ d.history →
          ∃ c r, ⟨writer, .databaseExec c, r⟩ ∈ s) := by
  obtain ⟨hl, hi⟩ := reaches_layers (H := H.honest) (filedSlot_kept codec) empty run
  have hc : Counted H d.world d.history := reaches_counted empty (fun _ _ _ _ _ ha => ha.1) run
  obtain ⟨reader, call, key, v, hf, -, payload, ttl, now, hp, henc⟩ := hi.stored k b stored
  rw [CacheEnvelope.decode_encode codec henc] at decoded
  cases decoded
  obtain ⟨q, s, hq, -, hs⟩ := hf.moments hl
  have hsh := hs.trans ((List.suffix_cons _ _).trans hq)
  have follows (writer : T) (m : UInt64)
      (hb : ⟨writer, .backend (.bumpGeneration I.nameSpace), .ok m⟩ ∈ d.history)
      (hm : m ≤ key.generation) : ∃ c r, ⟨writer, .databaseExec c, r⟩ ∈ s := by
    -- the bump had happened when the generation was read
    have hbq : (⟨writer, .backend (.bumpGeneration I.nameSpace), .ok m⟩ :
        Event T (Op V) Op.Res) ∈ q := by
      obtain ⟨p, hbp⟩ := History.exists_suffix_of_mem hb
      have hcount := hc.bumped _ _ hbp writer _ m rfl
      have hgen := hc.answered _ _ hq reader _ _ rfl
      refine History.mem_of_countP_le (p := isBump I.nameSpace) hbp
        ((List.suffix_cons _ _).trans hq) ?_ List.mem_cons_self (by simp [isBump])
      have hle := UInt64.le_iff_toNat_le.mp hm
      rw [List.countP_cons_of_pos (by simp [isBump])]
      exact hcount.symm.trans_le (hle.trans hgen.le)
    have hw := ordered_permitted run _ _ hq reader _ _ rfl _ _ hs (by simp [isRead]) _ hbq
      (by simp [isBump])
    obtain ⟨⟨t, op, r⟩, hx, hxw⟩ := hw
    cases op with
    | databaseExec c =>
      obtain rfl : t = writer := by simpa [isWrite] using hxw
      exact ⟨c, r, hx⟩
    | _ => cases hxw
  refine ⟨reader, call, v, s, hp, hsh, follows, fun hg writer m hb => follows writer m hb ?_⟩
  obtain ⟨p, hbp⟩ := History.exists_suffix_of_mem hb
  have hcount := hc.bumped _ _ hbp writer _ m rfl
  have hle := bumps_le_of_suffix (n := I.nameSpace) hbp
  rw [UInt64.le_iff_toNat_le, hcount, show key.generation = _ from hg, hc.counter]
  rwa [bumps_cons_backend, Store.bumpCount, if_pos rfl] at hle

end
/-- The last entry that was put into the backend. -/
def lastPut {V T : Type} (h : History V T) : Option (String × Bytes) :=
  h.findSome? fun e => match e.op with
    | .backend (.put k b _) => some (k, b)
    | _ => none

/-- A DML, then a query: what the query leaves in the backend follows the write. -/
theorem query_after_dml_is_fresh :
    ∃ (d : Sample.State Bool) (envelope : CacheEnvelope Bytes) (reader : Bool)
      (s : History UInt64 Bool), envelope.generation = 1 ∧ envelope.payload = toLeBytes 7 ∧
      (∃ call v, ⟨reader, .databaseQuery call, .ok v⟩ :: s <:+ d.history ∧
        toLeBytes v = envelope.payload) ∧ ∃ c r, ⟨true, .databaseExec c, r⟩ ∈ s := by
  obtain ⟨d, run, seen⟩ := play_observed (M := Sample.steps Bool Sample.interceptor) (A := Ordered)
    (c := Sample.start Sample.interceptor fun t => .statement
      (if t then .exec (Sample.call 2 "UPDATE t SET x = 1") else .query (Sample.call 1 "SELECT 1")))
    (List.replicate 8 (true, Sample.reading 6) ++ List.replicate 19 (false, Sample.reading 7))
    (fun d => decide ((⟨true, .backend (.bumpGeneration "ns"), .ok 1⟩ :
        Event Bool (Op UInt64) Op.Res) ∈ d.history) &&
      match lastPut d.history with
      | some (k, b) => decide (d.world.backend.abs.content k = some b) &&
        match CacheEnvelope.decode Sample.externals b with
        | .ok envelope => decide (envelope.generation = 1 ∧ envelope.payload = toLeBytes 7)
        | .error _ => false
      | none => false)
    (by decide +kernel)
  obtain ⟨bumped, stored⟩ := Bool.and_eq_true_iff.mp seen
  split at stored
  · next k b =>
    obtain ⟨hk, hd⟩ := Bool.and_eq_true_iff.mp stored
    split at hd
    · next envelope hdec =>
      obtain ⟨generation, payload⟩ := of_decide_eq_true hd
      obtain ⟨reader, call, v, s, hv, hs, follows, -⟩ :=
        stored_value_follows_writes (H := LocalBackend.healthy _) rfl Sample.externals_roundTrips run
          (of_decide_eq_true hk) hdec
      refine ⟨d, envelope, reader, s, generation, payload, ⟨call, v, hs, Except.ok.inj hv⟩, ?_⟩
      refine follows true 1 (of_decide_eq_true bumped) ?_
      rw [generation]
      decide
    · cases hd
  · cases stored

/-- A DML between the database read and the `after` of a query: the value from before the write is
filed under the generation that follows it. -/
theorem old_value_under_new_generation :
    ∃ (d : Sample.State Bool) (k : String) (b : Bytes) (envelope : CacheEnvelope Bytes),
      Reaches (Sample.steps Bool Sample.interceptor) Restriction.none
        (Sample.start Sample.interceptor fun t => .statement
          (if t then .exec (Sample.call 2 "UPDATE t SET x = 1")
            else .query (Sample.call 1 "SELECT 1"))) d ∧
      d.world.backend.abs.content k = some b ∧
      CacheEnvelope.decode Sample.externals b = .ok envelope ∧
      envelope.generation = d.world.backend.abs.counter "ns" ∧
      ¬ ∃ reader call v s, Sample.codec.toVecNamed v = .ok envelope.payload ∧
        ⟨reader, .databaseQuery call, .ok v⟩ :: s <:+ d.history ∧
        ∀ writer m, ⟨writer, .backend (.bumpGeneration "ns"), .ok m⟩ ∈ d.history →
          ∃ c r, ⟨writer, .databaseExec c, r⟩ ∈ s := by
  obtain ⟨d, run, seen⟩ := play_observed (M := Sample.steps Bool Sample.interceptor)
    (A := Restriction.none)
    (c := Sample.start Sample.interceptor fun t => .statement
      (if t then .exec (Sample.call 2 "UPDATE t SET x = 1") else .query (Sample.call 1 "SELECT 1")))
    (List.replicate 8 (false, Sample.reading 7) ++ List.replicate 8 (true, Sample.reading 6) ++
      List.replicate 10 (false, Sample.reading 7))
    (fun d => decide ((⟨true, .backend (.bumpGeneration "ns"), .ok 1⟩ :
        Event Bool (Op UInt64) Op.Res) ∈ d.history) &&
      decide (History.Always (fun e s => (match e.op with
        | .databaseQuery _ => s.all fun x => !isWrite true x
        | _ => true) = true) d.history) &&
      match lastPut d.history with
      | some (k, b) => decide (d.world.backend.abs.content k = some b) &&
        match CacheEnvelope.decode Sample.externals b with
        | .ok envelope => decide (envelope.generation = d.world.backend.abs.counter "ns")
        | .error _ => false
      | none => false)
    (by decide +kernel)
  simp only [Bool.and_eq_true, decide_eq_true_eq] at seen
  obtain ⟨⟨bumped, unwritten⟩, stored⟩ := seen
  split at stored
  · next _ k b _ =>
    obtain ⟨hk, hd⟩ := Bool.and_eq_true_iff.mp stored
    split at hd
    · next envelope hdec =>
      refine ⟨d, k, b, envelope, run, of_decide_eq_true hk, hdec, of_decide_eq_true hd, ?_⟩
      rintro ⟨reader, call, v, s, -, hs, follows⟩
      obtain ⟨c, r, hw⟩ := follows true 1 bumped
      have hno := List.all_eq_true.mp (unwritten _ _ hs) _ hw
      simp [isWrite] at hno
    · cases hd
  · cases stored

end RbatisCache.RbatisInterceptor
