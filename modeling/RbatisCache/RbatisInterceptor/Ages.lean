import RbatisCache.RbatisInterceptor.Lookups
import RbatisCache.RbatisInterceptor.Writes

/-! How long a query can be answered with a result. Every layer counts its lifetime from the moment at
which the value comes into it: the `after` that was handed the result, the commit that flushes it, the
lookup that promotes it. -/
namespace RbatisCache.RbatisInterceptor
open Interleaving
open RbatisCacheInterceptor

section
variable {V T : Type} [DecidableEq T]

/-- The history before the newest step of a task before which it may have waited. -/
def resumed (t : T) : History V T → History V T
  | [] => []
  | e :: h => if e.task = t ∧ e.op.resumes = true then h else resumed t h

/-- What `now_ms` reads at a time in nanoseconds. -/
def wallClock (epoch nanos : Nat) : UInt64 := u64OrMax ((epoch + nanos) / 1000000)

/-- Both clocks show the time. It passes between hook calls, and while a follower waits. -/
def Clocked {B : CacheBackend} (time : History V T → Nat) (epoch : Nat) :
    Restriction T (Op V) Op.Res (Choice B V) (World B V) :=
  fun t op ch _ h => ch.instant = time h ∧ ch.now = wallClock epoch (time h) ∧
    ((phase (h.own t)).Inside → op.resumes = false → time h = time (resumed t h))

instance {B : CacheBackend} {time : History V T → Nat} {epoch : Nat} (t : T) (op : Op V)
    (ch : Choice B V) (w : World B V) (h : History V T) :
    Decidable (Clocked time epoch t op ch w h) :=
  inferInstanceAs (Decidable (_ ∧ _ ∧ (_ → _ → _)))

variable (I : RbatisCacheInterceptor) (X : Externals Bytes) (C : ValueCodec V)
variable (time : History V T → Nat)

/-- The database has answered a query of the transaction with the value. -/
def HandedIn (h : History V T) (txId : Int) (v : V) : Prop :=
  ∃ t call, ⟨t, .enter (.after call (.query (.ok v))), ()⟩ ∈ h ∧ call.rb.isInTransaction = true ∧
    call.taskId = txId

/-- Until when the backend may serve a value that the database has answered with. -/
inductive Backed (h : History V T) (v : V) : Nat → Prop
  | stored {t : T} {call : Call V} {p : History V T}
      (handed : ⟨t, .enter (.after call (.query (.ok v))), ()⟩ :: p <:+ h) :
      Backed h v (time p + (entryTtl I C v).nanos)
  | flushed {t : T} {txId : Int} {p : History V T} (handed : HandedIn h txId v)
      (commit : ⟨t, .enter (.onEvent ⟨.commitSuccess, txId⟩), ()⟩ :: p <:+ h) :
      Backed h v (time p + max I.policy.ttl.nanos (entryTtl I C v).nanos)

/-- Until when the caches may answer a query with a value. -/
inductive Expires (h : History V T) (v : V) : Nat → Prop
  | loaded {t : T} {call : Call V} {p : History V T}
      (handed : ⟨t, .enter (.after call (.query (.ok v))), ()⟩ :: p <:+ h) :
      Expires h v (time p + I.policy.ttl.nanos)
  | backed {v₀ : V} {deadline : Nat} (origin : Backed I C time h v₀ deadline)
      (yields : Yields C v₀ v) : Expires h v deadline
  | promoted {v₀ : V} {deadline : Nat} {m : History V T} (moment : m <:+ h)
      (origin : Backed I C time m v₀ deadline) (yields : Yields C v₀ v) (early : time m < deadline) :
      Expires h v (time m + I.policy.ttl.nanos)

/-- A query is answered by the buffer of its own transaction, or before a deadline. -/
inductive Unexpired (call : Call V) (v : V) (h : History V T) : Prop
  | buffered (transaction : call.rb.isInTransaction = true)
      (mode : I.policy.transactionMode = .defer) (handed : HandedIn h call.taskId v)
  | cached {deadline : Nat} (expires : Expires I C time h v deadline) (early : time h < deadline)

/-- The bytes are an envelope that is fresh only as long as the backend may serve the value. -/
def Dated (epoch : Nat) (h : History V T) (bytes : Bytes) : Prop :=
  ∃ v₀ deadline, Backed I C time h v₀ deadline ∧
    ∀ envelope, CacheEnvelope.decode X bytes = .ok envelope →
      (∀ v, C.fromSlice envelope.payload = .ok v → Yields C v₀ v) ∧
      ∀ now, wallClock epoch now < envelope.expiresAtMs → now < deadline

/-- What the task that has resumed at a time can conclude from what it has read since. -/
def Concludes (epoch now : Nat) (h : History V T) : (op : Op V) → op.Res → Prop
  | .nowMs => fun r => r = wallClock epoch now
  | .instantNow => fun r => r = now
  | .backend (.get _) => fun r => ∀ bytes, r = .ok (some bytes) → Dated I X C time epoch h bytes
  | .l1Lookup _ => fun r => ∀ v, r = .live v →
    ∃ deadline, Expires I C time h v deadline ∧ now < deadline
  | .pendingGet txId _ => fun r => ∀ v, r = some v → HandedIn h txId v
  | _ => fun _ => True

structure Aged {B : CacheBackend} (epoch : Nat) (H : B.Honest) (w : World B V) (h : History V T) :
    Prop where
  filled : BuffersFilled I C w h
  slots : ∀ e entry, w.l1.entries.lookup e = some entry →
    Expires I C time h entry.value entry.expiresAt
  stored : ∀ k b, (H.abs w.backend).content k = some b → Dated I X C time epoch h b
  read : ∀ t op r, ⟨op, r⟩ ∈ stretch (h.own t) →
    Concludes I X C time epoch (time (resumed t h)) h op r
  returned : h.Always fun e s => ∀ t call v,
    e = ⟨t, .leave (.before call (.query ())) (.ok (.return v)), ()⟩ → Unexpired I C time call v s

/-- All that a task has made sure of. -/
def agingRule (task : Task V) (done : Done V) (op : Op V) : Prop :=
  writingRule I X C task done op ∧ lookups I X C done op ∧ bracket done op

variable {I X C time} {h s : History V T} {t : T} {v : V} {epoch : Nat} {deadline : Nat}

omit [DecidableEq T] in
theorem HandedIn.suffix {txId : Int} (hh : HandedIn s txId v) (hs : s <:+ h) : HandedIn h txId v := by
  obtain ⟨t, call, hm, transaction, taskId⟩ := hh
  exact ⟨t, call, hs.subset hm, transaction, taskId⟩

omit [DecidableEq T] in
theorem Backed.suffix (hb : Backed I C time s v deadline) (hs : s <:+ h) :
    Backed I C time h v deadline := by
  cases hb with
  | stored handed => exact .stored (handed.trans hs)
  | flushed handed commit => exact .flushed (handed.suffix hs) (commit.trans hs)

omit [DecidableEq T] in
theorem Expires.suffix (he : Expires I C time s v deadline) (hs : s <:+ h) :
    Expires I C time h v deadline := by
  cases he with
  | loaded handed => exact .loaded (handed.trans hs)
  | backed origin yields => exact .backed (origin.suffix hs) yields
  | promoted moment origin yields early => exact .promoted (moment.trans hs) origin yields early

omit [DecidableEq T] in
theorem Dated.suffix {bytes : Bytes} (hd : Dated I X C time epoch s bytes) (hs : s <:+ h) :
    Dated I X C time epoch h bytes := by
  obtain ⟨v₀, deadline, backed, envelope⟩ := hd
  exact ⟨v₀, deadline, backed.suffix hs, envelope⟩

omit [DecidableEq T] in
theorem Concludes.suffix {now : Nat} {op : Op V} {r : op.Res}
    (hc : Concludes I X C time epoch now s op r) (hs : s <:+ h) :
    Concludes I X C time epoch now h op r := by
  cases op with
  | backend o =>
    cases o with
    | get => exact fun bytes hb => (hc bytes hb).suffix hs
    | _ => trivial
  | nowMs | instantNow => exact hc
  | l1Lookup =>
    intro v hv
    obtain ⟨deadline, expires, early⟩ := hc v hv
    exact ⟨deadline, expires.suffix hs, early⟩
  | pendingGet => exact fun v hv => (hc v hv).suffix hs
  | _ => trivial

/-- Milliseconds do not let an envelope live longer. -/
theorem lt_of_fresh {put now : Nat} {ttl : Duration} (h : wallClock epoch now <
    saturatingAdd (wallClock epoch put) (CacheEnvelope.durationMs ttl)) : now < put + ttl.nanos := by
  have ms := UInt64.lt_iff_toNat_lt.mp h
  simp only [wallClock, CacheEnvelope.durationMs, Duration.asMillis, toNat_saturatingAdd,
    toNat_u64OrMax] at ms
  omega

/-! ### Moments -/

private theorem resumed_cons_ne {x : T} {op : Op V} {r : op.Res} (hx : x ≠ t) :
    resumed t ((⟨x, op, r⟩ : Event T (Op V) Op.Res) :: h) = resumed t h :=
  if_neg fun hr => hx hr.1

private theorem resumed_cons {x : T} {op : Op V} {r : op.Res} (hop : op.resumes = false) :
    resumed t ((⟨x, op, r⟩ : Event T (Op V) Op.Res) :: h) = resumed t h := by
  refine if_neg ?_
  rintro ⟨-, hr⟩
  rw [show op.resumes = true from hr] at hop
  cases hop

/-- A task inside a hook call that is not a `before` has not waited since it has entered. -/
theorem entry_of_inside {hook : Hook V} (hl : Lawful (fun _ => lookups I X C) h)
    (hin : phase (h.own t) = .inside hook) (last : (Phase.inside hook).rank = 4) :
    ⟨t, .enter hook, ()⟩ :: resumed t h <:+ h := by
  induction h with
  | nil => cases hin
  | cons e h ih =>
    obtain ⟨x, op, r⟩ := e
    have hlh : Lawful (fun _ => lookups I X C) h := hl.suffix (List.suffix_cons _ _)
    have grow (hin : phase (History.own h t) = .inside hook) :
        ⟨t, .enter hook, ()⟩ :: resumed t h <:+ (⟨x, op, r⟩ : Event T (Op V) Op.Res) :: h :=
      (ih hlh hin).trans (List.suffix_cons _ _)
    by_cases hx : x = t
    · subst hx
      rw [History.own_cons_self] at hin
      cases op with
      | enter other =>
        cases hin
        rw [resumed, if_pos ⟨rfl, rfl⟩]
      | awaitNotified load seen =>
        have waits : lookups I X C (History.own h x) (.awaitNotified load seen) :=
            hl _ _ (List.suffix_refl _)
        obtain ⟨call, inside⟩ := waits
        rw [show phase (History.own h x) = .inside hook from hin] at inside
        cases inside
        cases last
      | leave | databaseQuery | databaseExec => cases hin
      | _ =>
        rw [resumed_cons rfl]
        exact grow hin
    · rw [History.own_cons_ne hx] at hin
      rw [resumed_cons_ne hx]
      exact grow hin

/-! ### One step -/

variable {B : CacheBackend} {H : B.Honest} {tasks : T → Task V} {state : B.State}
variable {w u : World B V} {op : Op V} {r : op.Res} {ch : Choice B V}

theorem Clocked.still (ha : Clocked time epoch t op ch w h) (hb : bracket (h.own t) op)
    (hop : op.Inner) (hr : op.resumes = false) : time h = time (resumed t h) := by
  obtain ⟨hook, hin⟩ := (bracket_of_inner hop).mp hb
  refine ha.2.2 ?_ hr
  rw [hin]
  trivial

private theorem handedIn_of_filled (hl : Lawful (fun t => agingRule I X C (tasks t)) h) {txId : Int}
    {buf : TransactionalCacheBuffer V} (filled : FilledBuffer I C h txId buf) {key : CacheKey}
    (hv : buf.Holds key v) : HandedIn h txId v := by
  obtain ⟨t, r, hput⟩ := filled.put key v hv
  obtain ⟨s, hs⟩ := History.exists_suffix_of_mem hput
  obtain ⟨⟨⟨call, resolved, transaction, -, taskId⟩, -⟩, -⟩ := hl _ _ hs
  refine ⟨t, call, ?_, transaction, taskId⟩
  exact ((List.suffix_cons _ _).trans hs).subset (History.mem_own.mp resolved.entered)

theorem Aged.found (hi : Aged I X C time epoch H w h) (hf : FromL2 X C v (h.own t)) :
    ∃ v₀ deadline, Backed I C time h v₀ deadline ∧ Yields C v₀ v ∧
      time (resumed t h) < deadline := by
  obtain ⟨looked, read, decoded, fresh, value⟩ := hf
  obtain ⟨v₀, deadline, backed, envelope⟩ := hi.read t _ _ (looked.mem_stretch rfl) _ rfl
  obtain ⟨yields, early⟩ := envelope _ decoded
  have clock := hi.read t .nowMs _ read
  exact ⟨v₀, deadline, backed, yields v value, early _ (clock ▸ fresh)⟩

/-- What a task reads tells it about the moment at which it has resumed. -/
theorem Aged.concludes (hl : Lawful (fun t => agingRule I X C (tasks t)) h)
    (hi : Aged I X C time epoch H w h) (ha : Clocked time epoch t op ch w h)
    (hb : bracket (h.own t) op) (hop : op.resumes = false)
    (hm : (machine B V T I).perform t op ch w = some (r, u)) :
    Concludes I X C time epoch (time (resumed t h)) h op r := by
  cases op with
  | nowMs =>
    cases hm
    rw [← ha.still hb trivial rfl]
    exact ha.2.1
  | instantNow =>
    cases hm
    rw [← ha.still hb trivial rfl]
    exact ha.1
  | backend o =>
    cases o with
    | get k =>
      rintro bytes rfl
      exact hi.stored k bytes (H.got (congrArg Prod.fst (Option.some.inj hm)))
    | _ => trivial
  | l1Lookup e =>
    rintro v rfl
    have hlive : w.l1.lookup e ch.instant = .live v := congrArg Prod.fst (Option.some.inj hm)
    obtain ⟨entry, hs, early, rfl⟩ := L1Cache.lookup_live hlive
    rw [ha.1, ha.still hb trivial rfl] at early
    exact ⟨entry.expiresAt, hi.slots e entry hs, early⟩
  | pendingGet txId d =>
    rintro v rfl
    have hp : w.pendingGet txId d = some v := congrArg Prod.fst (Option.some.inj hm)
    obtain ⟨buf, hbuf, hv⟩ := Option.bind_eq_some_iff.mp hp
    obtain ⟨key, -, holds⟩ := TransactionalCacheBuffer.holds_of_pendingGet hv
    exact handedIn_of_filled hl (hi.filled.held txId buf hbuf) holds
  | _ => trivial

/-- What fills a slot. -/
theorem Aged.slot (hl : Lawful (fun t => agingRule I X C (tasks t)) h)
    (hi : Aged I X C time epoch H w h) (still : time h = time (resumed t h)) {entry : L1Entry V}
    (timed : Timed I X C entry (h.own t)) : Expires I C time h entry.value entry.expiresAt := by
  obtain ⟨⟨now, read, expiry⟩, source⟩ := timed
  obtain rfl : now = time (resumed t h) := hi.read t .instantNow now read
  rw [expiry]
  cases source with
  | loaded inside =>
    have looks : Lawful (fun _ => lookups I X C) h := fun e s hs => (hl e s hs).2.1
    exact .loaded (entry_of_inside looks inside rfl)
  | promoted found =>
    obtain ⟨v₀, deadline, backed, yields, early⟩ := hi.found found
    rw [← still] at early ⊢
    exact .promoted (List.suffix_refl _) backed yields early

/-- What is put into the backend. -/
theorem Aged.written (hl : Lawful (fun t => agingRule I X C (tasks t)) h)
    (hi : Aged I X C time epoch H w h) (codec : X.RoundTrips) {k : String} {bytes : Bytes}
    {ttl : Duration} (hb : bracket (h.own t) (.backend (.put k bytes ttl)))
    (hw : Written I X C k bytes ttl (h.own t)) : Dated I X C time epoch h bytes := by
  have looks : Lawful (fun _ => lookups I X C) h := fun e s hs => (hl e s hs).2.1
  have brackets : Bracketed h := fun e s hs => (hl e s hs).2.2
  obtain ⟨hook, hin⟩ := hb
  -- the envelope is stamped with the time at which the hook call was entered
  have stamped {key : CacheKey} {v : V} {payload : Bytes}
      (envelops : Envelops X C key v payload ttl bytes (h.own t)) {deadline : Nat}
      (backed : Backed I C time h v deadline)
      (late : time (resumed t h) + ttl.nanos ≤ deadline) : Dated I X C time epoch h bytes := by
    obtain ⟨now, hnow, encoded⟩ := envelops.envelope
    obtain ⟨past, hpast⟩ := List.head?_eq_some_iff.mp hnow
    have read : ⟨.nowMs, now⟩ ∈ stretch (h.own t) := by
      rw [hpast, stretch_cons rfl]
      exact List.mem_cons_self
    have clock : now = wallClock epoch (time (resumed t h)) := hi.read t .nowMs now read
    refine ⟨v, deadline, backed, fun envelope decoded => ?_⟩
    rw [CacheEnvelope.decode_encode codec encoded] at decoded
    cases decoded
    refine ⟨fun u value => .inr ⟨payload, envelops.encoded, value⟩, fun later fresh => ?_⟩
    rw [clock] at fresh
    exact Nat.lt_of_lt_of_le (lt_of_fresh fresh) late
  cases hw with
  | direct origin digest_eq envelops conforms =>
    have entered := History.mem_own.mp origin.resolved.entered
    obtain rfl := inside_of_entered brackets entered rfl hin
    refine stamped envelops (.stored (entry_of_inside looks hin rfl)) ?_
    rw [conforms.ttl]
  | flushed origin digest_eq envelops ttl_eq =>
    have entered := History.mem_own.mp origin.entered
    obtain rfl := inside_of_entered brackets entered rfl hin
    obtain ⟨s, hs⟩ := History.exists_suffix_of_mem_own origin.removed
    have filled := hi.filled.removed _ _ hs _ _ _ rfl
    have hsh : s <:+ h := (List.suffix_cons _ _).trans hs
    have handed := (handedIn_of_filled (hl.suffix hsh) filled origin.holds).suffix hsh
    refine stamped envelops (.flushed handed (entry_of_inside looks hin rfl)) ?_
    rw [ttl_eq, filled.ttl]
    omega

/-- What a query is answered with. -/
theorem Aged.unexpired (hi : Aged I X C time epoch H w h) (still : time h = time (resumed t h))
    {call : Call V} (hu : LookedUp I X C call v (h.own t)) : Unexpired I C time call v h := by
  cases hu with
  | buffered transaction mode looked =>
    exact .buffered transaction mode (hi.read t _ _ (looked.mem_stretch rfl) v rfl)
  | l1 looked =>
    obtain ⟨deadline, expires, early⟩ := hi.read t _ _ (looked.mem_stretch rfl) v rfl
    exact .cached expires (still ▸ early)
  | l2 found =>
    obtain ⟨v₀, deadline, backed, yields, early⟩ := hi.found found
    exact .cached (.backed backed yields) (still ▸ early)

omit [DecidableEq T] in
private theorem entry_of_perform (hm : (machine B V T I).perform t op ch w = some (r, u)) {e : Int}
    {entry : L1Entry V} (hs : u.l1.entries.lookup e = some entry) :
    w.l1.entries.lookup e = some entry ∨ (∃ d, op = .l1Replace e d entry) ∨
      ∃ d, op = .l1Insert e d entry := by
  rcases slot_of_perform hm hs with ⟨d, hf⟩ | ⟨hw, -⟩
  · cases op with
    | l1Replace x d' new =>
      have hu : w.setL1 (w.l1.replace x new).2 = u := congrArg Prod.snd (Option.some.inj hm)
      rw [← hu] at hs
      rcases L1Cache.lookup_of_replace hs with ⟨rfl, rfl, -⟩ | ⟨hw, -⟩
      · exact .inr (.inl ⟨_, rfl⟩)
      · exact .inl hw
    | l1Insert x d' new =>
      obtain ⟨-, rfl⟩ := Prod.mk.inj (Option.some.inj hm)
      rcases L1Cache.lookup_of_insert hs with ⟨rfl, rfl⟩ | ⟨hw, -⟩
      · exact .inr (.inr ⟨_, rfl⟩)
      · exact .inl hw
    | _ => cases hf
  · exact .inl hw

private theorem aged_preserved (codec : X.RoundTrips) :
    PreservesLawful (machine B V T I) (Clocked time epoch) (fun t => agingRule I X C (tasks t))
      (Aged I X C time epoch H) := by
  intro t op ch w h r u hl hi hr ha hm
  have hc : h <:+ ⟨t, op, r⟩ :: h := List.suffix_cons _ _
  obtain ⟨writes, looks, hb⟩ := hr
  have writing : Lawful (fun t => writingRule I X C (tasks t)) h := fun e s hs => (hl e s hs).1
  have filled : BuffersFilled I C u (⟨t, op, r⟩ :: h) :=
    buffersFilled_preserved (A := Restriction.none) t op ch w h r u writing hi.filled writes trivial hm
  refine ⟨filled, ?_, ?_, ?_, hi.returned.cons ?_⟩
  · intro e entry he
    rcases entry_of_perform hm he with hw | ⟨d, rfl⟩ | ⟨d, rfl⟩
    · exact (hi.slots e entry hw).suffix hc
    · exact (hi.slot hl (ha.still hb trivial rfl) looks).suffix hc
    · exact (hi.slot hl (ha.still hb trivial rfl) looks).suffix hc
  · intro k b hk
    rcases content_of_perform H hm hk with hk | ⟨ttl, rfl⟩
    · exact (hi.stored k b hk).suffix hc
    · exact (hi.written hl codec hb writes.2).suffix hc
  · intro x o q hq
    by_cases hx : t = x
    · subst hx
      rw [History.own_cons_self] at hq
      cases hop : op.resumes with
      | true =>
        rw [stretch_of_resumes hop] at hq
        cases hq
      | false =>
        rw [stretch_cons hop] at hq
        rw [resumed_cons hop]
        rcases List.mem_cons.mp hq with hq | hq
        · cases hq
          exact (hi.concludes hl ha hb hop hm).suffix hc
        · exact (hi.read t o q hq).suffix hc
    · rw [History.own_cons_ne hx] at hq
      rw [resumed_cons_ne hx]
      exact (hi.read x o q hq).suffix hc
  · intro x call v he
    cases he
    have still : time h = time (resumed t h) := by
      have hin : phase (h.own t) = .inside (.before call (.query ())) := hb
      exact ha.2.2 (by rw [hin]; trivial) rfl
    exact hi.unexpired still looks

private theorem reaches_aged (codec : X.RoundTrips) (empty : H.abs state = .empty)
    {d : Config T (Op V) Op.Res (World B V) (Reply V)}
    (run : Reaches (machine B V T I) (Clocked time epoch) (initial I X C tasks state) d) :
    Aged I X C time epoch H d.world d.history := by
  have hstart : Aged I X C time epoch H (initial I X C tasks state).world [] := by
    refine ⟨⟨fun tx buf hb => ?_, History.always_nil⟩, fun e entry he => ?_, fun k b hk => ?_,
      fun _ _ _ hq => ?_, History.always_nil⟩
    · simp [initial, World.new] at hb
    · simp [initial, World.new, L1Cache.new] at he
    · simp [initial, World.new, empty, Store.empty] at hk
    · cases hq
  have hc : (initial I X C tasks state).Obeys (fun t => agingRule I X C (tasks t))
      fun _ _ _ => True := by
    intro t
    have brackets : ((tasks t).program I X C).Obeys bracket (fun _ _ => True) [] := bracketed_program
    have all := (obeys_program.and writes_program).and (lookups_program.and brackets)
    exact all.mono fun _ _ _ => trivial
  exact (run.lawful (aged_preserved codec) hc rfl hstart).2.1

/-- Over an honest backend, if time passes only between hook calls and while followers wait, a query
is answered from the buffer of its own transaction or before the deadline of the layer that answers:
a lifetime after the `after`, the commit or the promotion that has brought the value there, where a
promotion is itself before the deadline of the backend. -/
theorem answers_before_deadline (codec : X.RoundTrips) (empty : H.abs state = .empty)
    {d : Config T (Op V) Op.Res (World B V) (Reply V)}
    (run : Reaches (machine B V T I) (Clocked time epoch) (initial I X C tasks state) d)
    {call : Call V} {q : History V T}
    (left : ⟨t, .leave (.before call (.query ())) (.ok (.return v)), ()⟩ :: q <:+ d.history) :
    Unexpired I C time call v q :=
  (reaches_aged codec empty run).returned _ _ left t call v rfl

end
/-- A query at the start, another executor after 299 seconds, and the same one again after 500. -/
def promotionTime (h : History UInt64 (Fin 3)) : Nat :=
  if h.length < 19 then 0 else if h.length < 30 then 299000000000 else 500000000000

/-- An environment at a time in nanoseconds. -/
def Sample.at (nanos : Nat) : Choice Sample.Backend UInt64 :=
  { Sample.reading 7 with
    backend := ⟨[], wallClock 0 nanos⟩
    now := wallClock 0 nanos
    instant := nanos }

abbrev Sample.promotionStart : Sample.State (Fin 3) :=
  Sample.start Sample.interceptor fun t => Sample.select (Sample.call (if t = 0 then 1 else 2) "SELECT 1")

def Sample.promotionSteps : List (Fin 3 × Choice Sample.Backend UInt64) :=
  List.replicate 19 (0, Sample.at 0) ++ List.replicate 11 (1, Sample.at 299000000000) ++
    List.replicate 5 (2, Sample.at 500000000000)

/-- A result that is promoted shortly before its envelope expires. -/
theorem promoted_value_unexpired :
    ∃ (d : Sample.State (Fin 3)) (q : History UInt64 (Fin 3)),
      ⟨2, .leave (.before (Sample.call 2 "SELECT 1") (.query ())) (.ok (.return 7)), ()⟩ :: q <:+
        d.history ∧
      Unexpired Sample.interceptor Sample.codec promotionTime (Sample.call 2 "SELECT 1") 7 q := by
  obtain ⟨d, run, seen⟩ := play_observed (M := Sample.steps (Fin 3) Sample.interceptor)
    (A := Clocked promotionTime 0) (c := Sample.promotionStart) Sample.promotionSteps
    (fun d => decide (d.history.head? = some
      ⟨2, .leave (.before (Sample.call 2 "SELECT 1") (.query ())) (.ok (.return 7)), ()⟩))
    (by decide +kernel)
  have left := History.suffix_of_head? (of_decide_eq_true seen)
  exact ⟨d, d.history.tail, left, answers_before_deadline (H := (LocalBackend.healthy _).honest)
    Sample.externals_roundTrips rfl run left⟩

/-- A promoted result is returned 500 seconds after the database has answered with it, under a
lifetime of 300 seconds. -/
theorem promoted_value_outlives_ttl :
    ∃ (d : Sample.State (Fin 3)) (q : History UInt64 (Fin 3)),
      Reaches (Sample.steps (Fin 3) Sample.interceptor) (Clocked promotionTime 0)
        Sample.promotionStart d ∧
      ⟨2, .leave (.before (Sample.call 2 "SELECT 1") (.query ())) (.ok (.return 7)), ()⟩ :: q <:+
        d.history ∧
      Sample.codec.isEmpty 7 = false ∧
      ¬ ∃ t call v₀ p, ⟨t, .enter (.after call (.query (.ok v₀))), ()⟩ :: p <:+ q ∧
        promotionTime q < promotionTime p + Sample.interceptor.policy.ttl.nanos := by
  obtain ⟨d, run, seen⟩ := play_observed (M := Sample.steps (Fin 3) Sample.interceptor)
    (A := Clocked promotionTime 0) (c := Sample.promotionStart) Sample.promotionSteps
    (fun d => decide (d.history.head? = some
        ⟨2, .leave (.before (Sample.call 2 "SELECT 1") (.query ())) (.ok (.return 7)), ()⟩) &&
      decide (History.Always (fun e p => Op.handedOver e.op ≠ none →
        promotionTime p + 300000000000 ≤ promotionTime d.history.tail) d.history.tail))
    (by decide +kernel)
  simp only [Bool.and_eq_true, decide_eq_true_eq] at seen
  obtain ⟨head, old⟩ := seen
  refine ⟨d, d.history.tail, run, History.suffix_of_head? head, rfl, ?_⟩
  rintro ⟨t, call, v₀, p, handed, young⟩
  exact absurd young (Nat.not_lt.mpr (old _ _ handed (Option.some_ne_none call)))

end RbatisCache.RbatisInterceptor
