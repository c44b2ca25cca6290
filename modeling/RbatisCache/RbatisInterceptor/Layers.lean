import RbatisCache.RbatisInterceptor.Hooks

/-! Where cached values come from. Whatever the backend, a transaction buffer or a slot of the
first-level cache holds was handed to the `after` of some query before. -/
namespace RbatisCache.RbatisInterceptor
open Interleaving

/-- An operation that fills the slot of an executor. -/
inductive Fill {V : Type} : (op : Op V) → op.Res → Int → String → V → Prop
  | replace (e : Int) (d : String) (entry : L1Entry V) :
      Fill (.l1Replace e d entry) true e d entry.value
  | insert (e : Int) (d : String) (entry : L1Entry V) :
      Fill (.l1Insert e d entry) () e d entry.value

theorem Fill.fills {V : Type} {I : RbatisCacheInterceptor} {X : Externals Bytes} {C : ValueCodec V}
    {task : Task V} {done : Done V} {op : Op V} {r : op.Res} {e : Int} {d : String} {v : V}
    (hf : Fill op r e d v) (hr : rule I X C task done op) : Fills I X C e d v done := by
  cases hf with
  | replace => exact hr
  | insert => exact hr

section
variable {V T : Type}

/-- The digest under which an event fills the slot of an executor. -/
def fillOf (e : Int) (event : Event T (Op V) Op.Res) : Option String :=
  match event with
  | ⟨_, .l1Replace x d _, replaced⟩ => if x = e ∧ replaced = true then some d else none
  | ⟨_, .l1Insert x d _, _⟩ => if x = e then some d else none
  | _ => none

theorem fillOf_of_fill {t : T} {op : Op V} {r : op.Res} {e : Int} {d : String} {v : V}
    (hf : Fill op r e d v) : fillOf e ⟨t, op, r⟩ = some d := by
  cases hf with
  | replace => simp [fillOf]
  | insert => simp [fillOf]

theorem fillOf_of_not_fill {t : T} {op : Op V} {r : op.Res} {e : Int}
    (hf : ∀ d v, ¬ Fill op r e d v) : fillOf e ⟨t, op, r⟩ = none := by
  cases op with
  | l1Replace x d entry =>
    refine if_neg ?_
    rintro ⟨rfl, rfl⟩
    exact hf d entry.value (.replace x d entry)
  | l1Insert x d entry =>
    refine if_neg ?_
    rintro rfl
    exact hf d entry.value (.insert x d entry)
  | _ => rfl

end

/-! ### What one step does to the three layers -/

section
variable {B : CacheBackend} {V T : Type} {self : RbatisCacheInterceptor} {t : T} {op : Op V}
variable {ch : Choice B V} {w u : World B V} {r : op.Res}

private theorem onBuffer_frame (x : Int)
    (f : TransactionalCacheBuffer V → TransactionalCacheBuffer V) :
    (w.onBuffer x f).2.backend = w.backend ∧ (w.onBuffer x f).2.l1 = w.l1 := by
  unfold World.onBuffer
  split
  · exact ⟨rfl, rfl⟩
  · exact ⟨rfl, rfl⟩

theorem backend_of_perform (hop : ∀ o, op ≠ .backend o)
    (hm : (machine B V T self).perform t op ch w = some (r, u)) : u.backend = w.backend := by
  cases op with
  | backend o => exact absurd rfl (hop o)
  | awaitNotified load seen =>
    simp only [machine] at hm
    split at hm
    · cases hm
      rfl
    · cases hm
  | bufferPut tx key v =>
    obtain ⟨-, rfl⟩ := Prod.mk.inj (Option.some.inj hm)
    exact (onBuffer_frame _ _).1
  | clearNamespace tx n =>
    obtain ⟨-, rfl⟩ := Prod.mk.inj (Option.some.inj hm)
    exact (onBuffer_frame _ _).1
  | _ =>
    cases hm
    rfl

theorem content_of_perform (H : B.Honest)
    (hm : (machine B V T self).perform t op ch w = some (r, u)) {k : String} {b : Bytes}
    (hk : (H.abs u.backend).content k = some b) :
    (H.abs w.backend).content k = some b ∨ ∃ ttl, op = .backend (.put k b ttl) := by
  by_cases hop : ∀ o, op ≠ .backend o
  · rw [backend_of_perform hop hm] at hk
    exact .inl hk
  · push Not at hop
    obtain ⟨o, rfl⟩ := hop
    cases hm
    rcases H.content hk with hk | ⟨ttl, rfl⟩
    · exact .inl hk
    · exact .inr ⟨ttl, rfl⟩

theorem slot_of_perform (hm : (machine B V T self).perform t op ch w = some (r, u)) {e : Int}
    {entry : L1Entry V} (hs : u.l1.entries.lookup e = some entry) :
    (∃ d, Fill op r e d entry.value) ∨
      w.l1.entries.lookup e = some entry ∧ op ≠ .l1Clear e ∧ ∀ d v, ¬ Fill op r e d v := by
  have hold (hl : u.l1 = w.l1) (hclear : op ≠ .l1Clear e) (hfill : ∀ d v, ¬ Fill op r e d v) :
      (∃ d, Fill op r e d entry.value) ∨
        w.l1.entries.lookup e = some entry ∧ op ≠ .l1Clear e ∧ ∀ d v, ¬ Fill op r e d v := by
    rw [hl] at hs
    exact .inr ⟨hs, hclear, hfill⟩
  cases op with
  | l1Replace x d new =>
    have hr : (w.l1.replace x new).1 = r := congrArg Prod.fst (Option.some.inj hm)
    have hu : w.setL1 (w.l1.replace x new).2 = u := congrArg Prod.snd (Option.some.inj hm)
    rw [← hu] at hs
    rcases L1Cache.lookup_of_replace hs with ⟨rfl, rfl, htrue⟩ | ⟨hs, hx⟩
    · rw [hr] at htrue
      subst htrue
      exact .inl ⟨d, .replace e d entry⟩
    · refine .inr ⟨hs, nofun, fun d v hf => ?_⟩
      rw [hr] at hx
      cases hf
      rcases hx with hx | hx
      · exact hx rfl
      · cases hx
  | l1Insert x d new =>
    obtain ⟨-, rfl⟩ := Prod.mk.inj (Option.some.inj hm)
    rcases L1Cache.lookup_of_insert hs with ⟨rfl, rfl⟩ | ⟨hs, hx⟩
    · exact .inl ⟨d, .insert e d entry⟩
    · refine .inr ⟨hs, nofun, fun d v hf => ?_⟩
      cases hf
      exact hx rfl
  | l1Remove x =>
    obtain ⟨-, rfl⟩ := Prod.mk.inj (Option.some.inj hm)
    exact .inr ⟨(L1Cache.lookup_of_remove hs).1, nofun, nofun⟩
  | l1Clear x =>
    obtain ⟨-, rfl⟩ := Prod.mk.inj (Option.some.inj hm)
    obtain ⟨hs, hx⟩ := L1Cache.lookup_of_remove hs
    refine .inr ⟨hs, fun he => hx ?_, nofun⟩
    cases he
    rfl
  | awaitNotified load seen =>
    simp only [machine] at hm
    split at hm
    · cases hm
      exact hold rfl nofun nofun
    · cases hm
  | bufferPut tx key v =>
    obtain ⟨-, rfl⟩ := Prod.mk.inj (Option.some.inj hm)
    exact hold (onBuffer_frame _ _).2 nofun nofun
  | clearNamespace tx n =>
    obtain ⟨-, rfl⟩ := Prod.mk.inj (Option.some.inj hm)
    exact hold (onBuffer_frame _ _).2 nofun nofun
  | _ =>
    cases hm
    exact hold rfl nofun nofun

private theorem lookup_onBuffer (tx x : Int)
    (f : TransactionalCacheBuffer V → TransactionalCacheBuffer V) :
    (w.onBuffer x f).2.txBuffers.lookup tx =
      if tx = x then (w.txBuffers.lookup tx).map f else w.txBuffers.lookup tx := by
  unfold World.onBuffer
  split
  · next hnone =>
    split
    · next htx => rw [htx, hnone, Option.map_none]
    · rfl
  · next old hold =>
    rw [DashMap.lookup_replace]
    split
    · next htx => rw [htx, hold, Option.map_some, Option.map_some]
    · simp

variable (self) in
/-- What an operation makes of the buffer of a transaction. -/
def Op.onBuffer (tx : Int) (buffer : Option (TransactionalCacheBuffer V)) :
    Op V → Option (TransactionalCacheBuffer V)
  | .bufferPut x key value => if tx = x then buffer.map fun b => b.put key value else buffer
  | .clearNamespace x n => if tx = x then buffer.map fun b => b.clearNamespace n else buffer
  | .insertBuffer x => if tx = x then some (.new self.policy.ttl) else buffer
  | .removeBuffer x => if tx = x then none else buffer
  | _ => buffer

theorem txBuffers_of_perform (hm : (machine B V T self).perform t op ch w = some (r, u)) (tx : Int) :
    u.txBuffers.lookup tx = op.onBuffer self tx (w.txBuffers.lookup tx) := by
  cases op with
  | bufferPut x key v =>
    obtain ⟨-, rfl⟩ := Prod.mk.inj (Option.some.inj hm)
    exact lookup_onBuffer tx x _
  | clearNamespace x n =>
    obtain ⟨-, rfl⟩ := Prod.mk.inj (Option.some.inj hm)
    exact lookup_onBuffer tx x _
  | insertBuffer x =>
    obtain ⟨-, rfl⟩ := Prod.mk.inj (Option.some.inj hm)
    by_cases htx : tx = x
    · subst htx
      simp [Op.onBuffer]
    · simp [Op.onBuffer, htx]
  | removeBuffer x =>
    obtain ⟨-, rfl⟩ := Prod.mk.inj (Option.some.inj hm)
    by_cases htx : tx = x
    · subst htx
      simp [Op.onBuffer]
    · simp [Op.onBuffer, htx]
  | awaitNotified load seen =>
    simp only [machine] at hm
    split at hm
    · cases hm
      rfl
    · cases hm
  | _ =>
    cases hm
    rfl

/-- Where the buffer of a transaction comes from. -/
theorem buffer_origin (hm : (machine B V T self).perform t op ch w = some (r, u)) {tx : Int}
    {buf : TransactionalCacheBuffer V} (hl : u.txBuffers.lookup tx = some buf) :
    op = .insertBuffer tx ∧ buf = .new self.policy.ttl ∨
      ∃ old, w.txBuffers.lookup tx = some old ∧ (buf = old ∨
        (∃ key v, op = .bufferPut tx key v ∧ buf = old.put key v) ∨
        ∃ n, op = .clearNamespace tx n ∧ buf = old.clearNamespace n) := by
  rw [txBuffers_of_perform hm] at hl
  cases op with
  | bufferPut x key v =>
    simp only [Op.onBuffer] at hl
    split at hl
    · next htx =>
      subst htx
      obtain ⟨old, hold, rfl⟩ := Option.map_eq_some_iff.mp hl
      exact .inr ⟨old, hold, .inr (.inl ⟨key, v, rfl, rfl⟩)⟩
    · exact .inr ⟨buf, hl, .inl rfl⟩
  | clearNamespace x n =>
    simp only [Op.onBuffer] at hl
    split at hl
    · next htx =>
      subst htx
      obtain ⟨old, hold, rfl⟩ := Option.map_eq_some_iff.mp hl
      exact .inr ⟨old, hold, .inr (.inr ⟨n, rfl, rfl⟩)⟩
    · exact .inr ⟨buf, hl, .inl rfl⟩
  | insertBuffer x =>
    simp only [Op.onBuffer] at hl
    split at hl
    · next htx =>
      subst htx
      exact .inl ⟨rfl, (Option.some.inj hl).symm⟩
    · exact .inr ⟨buf, hl, .inl rfl⟩
  | removeBuffer x =>
    simp only [Op.onBuffer] at hl
    split at hl
    · cases hl
    · exact .inr ⟨buf, hl, .inl rfl⟩
  | _ => exact .inr ⟨buf, hl, .inl rfl⟩

private theorem buffer_of_perform (hm : (machine B V T self).perform t op ch w = some (r, u)) {tx : Int}
    {buf : TransactionalCacheBuffer V} {key : CacheKey} {v : V}
    (hl : u.txBuffers.lookup tx = some buf) (hh : buf.Holds key v) :
    (∃ old, w.txBuffers.lookup tx = some old ∧ old.Holds key v) ∨ op = .bufferPut tx key v := by
  rcases buffer_origin hm hl with ⟨-, rfl⟩ | ⟨old, hold, rfl | ⟨k, a, rfl, rfl⟩ | ⟨n, rfl, rfl⟩⟩
  · exact absurd hh TransactionalCacheBuffer.not_holds_new
  · exact .inl ⟨_, hold, hh⟩
  · rcases TransactionalCacheBuffer.holds_of_put hh with ⟨rfl, rfl⟩ | hh
    · exact .inr rfl
    · exact .inl ⟨old, hold, hh⟩
  · exact .inl ⟨old, hold, hh⟩

end

section
variable {V T : Type} [DecidableEq T]
variable (I : RbatisCacheInterceptor) (X : Externals Bytes) (C : ValueCodec V)

/-- The `after` of a query was handed the value and has resolved the key. -/
def Filed (h : History V T) (t : T) (call : Call V) (key : CacheKey) (v : V) : Prop :=
  Resolved I X C call (.ok v) key (h.own t)

/-- A value yields itself and whatever its stored encoding decodes to. -/
def Yields (v u : V) : Prop :=
  u = v ∨ ∃ bytes, C.toVecNamed v = .ok bytes ∧ C.fromSlice bytes = .ok u

def Stored (h : History V T) (k : String) (b : Bytes) : Prop :=
  ∃ t call key v, Filed I X C h t call key v ∧ key.digest = k ∧ Encodes X C key v b

def Pending (h : History V T) (key : CacheKey) (v : V) : Prop := ∃ t call, Filed I X C h t call key v

/-- The backend had a value for the key, of the key's generation. -/
def Served (h : History V T) (key : CacheKey) (v : V) : Prop :=
  ∃ t call origin v₀, Filed I X C h t call origin v₀ ∧ origin.digest = key.digest ∧
    origin.generation = key.generation ∧ Yields C v₀ v

/-- What the backend and the buffers hold and have answered was handed to some `after`; what the
slots of the first-level cache may hold is left to `S`. -/
structure Layers {B : CacheBackend} (S : Int → V → History V T → Prop) (H : B.Honest)
    (w : World B V) (h : History V T) : Prop where
  stored : ∀ k b, (H.abs w.backend).content k = some b → Stored I X C h k b
  pending : ∀ tx buf key v, w.txBuffers.lookup tx = some buf → buf.Holds key v →
    Pending I X C h key v
  slots : ∀ e entry, w.l1.entries.lookup e = some entry → S e entry.value h
  got : h.Always fun e s => ∀ t k b, e = ⟨t, .backend (.get k), .ok (some b)⟩ → Stored I X C s k b
  removed : h.Always fun e s => ∀ t tx buf, e = ⟨t, .removeBuffer tx, some buf⟩ →
    ∀ key v, buf.Holds key v → Pending I X C s key v
  probed : h.Always fun e s => ∀ t tx d v, e = ⟨t, .pendingGet tx d, some v⟩ →
    ∃ key, key.digest = d ∧ Pending I X C s key v
  looked : h.Always fun e s => ∀ t x v, e = ⟨t, .l1Lookup x, .live v⟩ → S x v s

variable {I X C} {h s : History V T}

theorem Filed.suffix {t : T} {call : Call V} {key : CacheKey} {v : V}
    (hf : Filed I X C s t call key v) (hs : s <:+ h) : Filed I X C h t call key v :=
  Resolved.grow hf (History.own_suffix hs)

theorem Filed.handed {t : T} {call : Call V} {key : CacheKey} {v : V}
    (hf : Filed I X C h t call key v) : ⟨t, .enter (.after call (.query (.ok v))), ()⟩ ∈ h :=
  History.mem_own.mp (Resolved.entered hf)

theorem Stored.suffix {k : String} {b : Bytes} (hst : Stored I X C s k b) (hs : s <:+ h) :
    Stored I X C h k b := by
  obtain ⟨t, call, key, v, hf, hd, he⟩ := hst
  exact ⟨t, call, key, v, hf.suffix hs, hd, he⟩

theorem Pending.suffix {key : CacheKey} {v : V} (hp : Pending I X C s key v) (hs : s <:+ h) :
    Pending I X C h key v := by
  obtain ⟨t, call, hf⟩ := hp
  exact ⟨t, call, hf.suffix hs⟩

theorem Encodes.decoded (codec : X.RoundTrips) {key : CacheKey} {v u : V} {b : Bytes}
    {envelope : CacheEnvelope Bytes} (he : Encodes X C key v b)
    (hd : CacheEnvelope.decode X b = .ok envelope) (hv : C.fromSlice envelope.payload = .ok u) :
    envelope.generation = key.generation ∧ Yields C v u := by
  obtain ⟨payload, ttl, now, hp, henc⟩ := he
  rw [CacheEnvelope.decode_encode codec henc] at hd
  cases hd
  exact ⟨rfl, .inr ⟨payload, hp, hv⟩⟩

variable {B : CacheBackend} {S : Int → V → History V T → Prop} {H : B.Honest} {w u : World B V}
variable {t : T}

/-- What a query has found in the backend, at the moment of the answer. -/
theorem Layers.served (hi : Layers I X C S H w h) (codec : X.RoundTrips) (hs : s <:+ h)
    {key : CacheKey} {v : V} (hf : Found X C key v (s.own t)) :
    ∃ bytes q, ⟨t, .backend (.get key.digest), .ok (some bytes)⟩ :: q <:+ s ∧
      Served I X C q key v := by
  obtain ⟨got, decoded, generation, value⟩ := hf
  obtain ⟨q, hq⟩ := History.exists_suffix_of_mem_own got
  obtain ⟨t', call, origin, v₀, hfiled, hd, he⟩ := hi.got _ _ (hq.trans hs) t _ _ rfl
  obtain ⟨hg, hy⟩ := he.decoded codec decoded value
  exact ⟨_, q, hq, t', call, origin, v₀, hfiled, hd, hg.symm.trans generation, hy⟩

/-- What the slots owe: every filling operation puts something there that `S` allows, and nothing
that happens while a slot is kept revokes the allowance. -/
structure SlotsKept (tasks : T → Task V) (A : Restriction T (Op V) Op.Res (Choice B V) (World B V))
    (S : Int → V → History V T → Prop) (H : B.Honest) : Prop where
  fill : ∀ {t op ch w h} {r : op.Res} {u e d v}, Lawful (fun t => rule I X C (tasks t)) h →
    Layers I X C S H w h → rule I X C (tasks t) (h.own t) op → A t op ch w h →
    (machine B V T I).perform t op ch w = some (r, u) → Fill op r e d v → S e v (⟨t, op, r⟩ :: h)
  keep : ∀ {t op ch w h} {r : op.Res} {u e entry}, Lawful (fun t => rule I X C (tasks t)) h →
    Layers I X C S H w h → rule I X C (tasks t) (h.own t) op → A t op ch w h →
    (machine B V T I).perform t op ch w = some (r, u) → w.l1.entries.lookup e = some entry →
    op ≠ .l1Clear e → (∀ d v, ¬ Fill op r e d v) → S e entry.value h →
    S e entry.value (⟨t, op, r⟩ :: h)

variable {tasks : T → Task V} {A : Restriction T (Op V) Op.Res (Choice B V) (World B V)}

/-- What is put into the backend was handed to some `after`. -/
theorem Layers.stored_of_stores (hi : Layers I X C S H w h) {k : String} {b : Bytes}
    (hs : Stores I X C k b (h.own t)) : Stored I X C h k b := by
  cases hs with
  | loaded resolved digest_eq encodes => exact ⟨t, _, _, _, resolved, digest_eq, encodes⟩
  | flushed removed holds digest_eq encodes =>
    obtain ⟨s, hs⟩ := History.exists_suffix_of_mem_own removed
    obtain ⟨t', call, hf⟩ := hi.removed _ _ hs t _ _ rfl _ _ holds
    exact ⟨t', call, _, _, hf.suffix ((List.suffix_cons _ _).trans hs), digest_eq, encodes⟩

theorem layers_preserved (hS : SlotsKept (I := I) (X := X) (C := C) tasks A S H) :
    PreservesLawful (machine B V T I) A (fun t => rule I X C (tasks t)) (Layers I X C S H) := by
  intro t op ch w h r u hl hi hr ha hm
  have hc : h <:+ ⟨t, op, r⟩ :: h := List.suffix_cons _ _
  refine ⟨?_, ?_, ?_, hi.got.cons ?_, hi.removed.cons ?_, hi.probed.cons ?_, hi.looked.cons ?_⟩
  · intro k b hk
    rcases content_of_perform H hm hk with hk | ⟨ttl, rfl⟩
    · exact (hi.stored k b hk).suffix hc
    · exact (hi.stored_of_stores hr).suffix hc
  · intro tx buf key v hb hv
    rcases buffer_of_perform hm hb hv with ⟨old, ho, hv⟩ | rfl
    · exact (hi.pending tx old key v ho hv).suffix hc
    · obtain ⟨call, hres, -⟩ := hr
      exact Pending.suffix ⟨t, call, hres⟩ hc
  · intro e entry he
    rcases slot_of_perform hm he with ⟨d, hf⟩ | ⟨hw, hclear, hfill⟩
    · exact hS.fill hl hi hr ha hm hf
    · exact hS.keep hl hi hr ha hm hw hclear hfill (hi.slots e entry hw)
  · intro t' k b he
    cases he
    exact hi.stored k b (H.got (congrArg Prod.fst (Option.some.inj hm)))
  · intro t' tx buf he key v hv
    cases he
    exact hi.pending tx buf key v (congrArg Prod.fst (Option.some.inj hm)) hv
  · intro t' tx d v he
    cases he
    have hp : w.pendingGet tx d = some v := congrArg Prod.fst (Option.some.inj hm)
    obtain ⟨buf, hb, hv⟩ := Option.bind_eq_some_iff.mp hp
    obtain ⟨key, hd, hh⟩ := TransactionalCacheBuffer.holds_of_pendingGet hv
    exact ⟨key, hd, hi.pending tx buf key v hb hh⟩
  · intro t' x v he
    cases he
    have hl : w.l1.lookup x ch.instant = .live v := congrArg Prod.fst (Option.some.inj hm)
    obtain ⟨entry, hs, -, rfl⟩ := L1Cache.lookup_live hl
    exact hi.slots x entry hs

theorem layers_initial {state : B.State} (empty : H.abs state = .empty) :
    Layers I X C S H (initial I X C tasks state).world [] where
  stored k b hk := by simp [initial, World.new, empty, Store.empty] at hk
  pending tx buf key v hb := by simp [initial, World.new] at hb
  slots e entry he := by simp [initial, World.new, L1Cache.new] at he
  got := History.always_nil
  removed := History.always_nil
  probed := History.always_nil
  looked := History.always_nil

/-- In every run over an empty backend. -/
theorem reaches_layers (hS : SlotsKept (I := I) (X := X) (C := C) tasks A S H) {state : B.State}
    (empty : H.abs state = .empty) {d : Config T (Op V) Op.Res (World B V) (Reply V)}
    (run : Reaches (machine B V T I) A (initial I X C tasks state) d) :
    Lawful (fun t => rule I X C (tasks t)) d.history ∧ Layers I X C S H d.world d.history := by
  obtain ⟨hl, hi, -⟩ :=
    run.lawful (layers_preserved hS) (obeys_initial tasks state) rfl (layers_initial empty)
  exact ⟨hl, hi⟩

variable (I X C) in
/-- A slot holds what some query has filed, whichever query that was. -/
def FiledSlot (_ : Int) (v : V) (h : History V T) : Prop :=
  ∃ t call key v₀, Filed I X C h t call key v₀ ∧ Yields C v₀ v

/-- Nothing but filed values gets into the slots. -/
theorem filedSlot_kept (codec : X.RoundTrips) :
    SlotsKept (I := I) (X := X) (C := C) tasks A (FiledSlot I X C) H where
  fill := by
    intro t op ch w h r u e d v hl hi hr ha hm hf
    have hc : h <:+ ⟨t, op, r⟩ :: h := List.suffix_cons _ _
    cases hf.fills hr with
    | promoted looks executor digest_eq found =>
      obtain ⟨_, q, hq, t', call', origin, v₀, hfiled, -, -, hy⟩ :=
        hi.served codec (List.suffix_refl _) found
      exact ⟨t', call', origin, v₀, hfiled.suffix (((List.suffix_cons _ _).trans hq).trans hc), hy⟩
    | loaded resolved executor digest_eq =>
      exact ⟨t, _, _, v, Filed.suffix resolved hc, .inl rfl⟩
  keep := by
    intro t op ch w h r u e entry hl hi hr ha hm hw hclear hfill hS
    obtain ⟨t', call', key, v₀, hfiled, hy⟩ := hS
    exact ⟨t', call', key, v₀, hfiled.suffix (List.suffix_cons _ _), hy⟩

/-- Every answer of a `before` was filed by some query. -/
theorem Layers.answered (hi : Layers I X C (FiledSlot I X C) H w h) (codec : X.RoundTrips)
    (hs : s <:+ h) {call : Call V} {v : V} (ha : Answered I X C call v (s.own t)) :
    ∃ t' call' key v₀, Filed I X C s t' call' key v₀ ∧ Yields C v₀ v := by
  cases ha with
  | buffered entered transaction mode built got =>
    obtain ⟨q, hq⟩ := History.exists_suffix_of_mem_own got
    obtain ⟨k, -, t', call', hf⟩ := hi.probed _ _ (hq.trans hs) t _ _ v rfl
    exact ⟨t', call', k, v, hf.suffix ((List.suffix_cons _ _).trans hq), .inl rfl⟩
  | l1 looks got =>
    obtain ⟨q, hq⟩ := History.exists_suffix_of_mem_own got
    obtain ⟨t', call', k, v₀, hf, hy⟩ := hi.looked _ _ (hq.trans hs) t _ v rfl
    exact ⟨t', call', k, v₀, hf.suffix ((List.suffix_cons _ _).trans hq), hy⟩
  | l2 looks found =>
    obtain ⟨_, q, hq, t', call', k, v₀, hf, -, -, hy⟩ := hi.served codec hs found
    exact ⟨t', call', k, v₀, hf.suffix ((List.suffix_cons _ _).trans hq), hy⟩

end
end RbatisCache.RbatisInterceptor
