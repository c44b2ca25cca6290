import RbatisCache.Interleaving.Linearization
import RbatisCache.Memcached.Storage
import RbatisCache.Spi.Sample

/-! The calls of the clients of a memcached server, as calls of a store at the other end of a network.
The message that decides a call is its last one; the `add` of a bump changes nothing that a client
reads. -/
namespace RbatisCache.Memcached
open Interleaving
open MemcachedCacheBackend (entryKey generationKey ttlSeconds)

abbrev Sent := List (Sigma Message.Res)

namespace MemcachedCacheBackend
variable (client : MemcachedCacheBackend)

def received (r : Except String (Option Bytes)) : Except CacheError (Option Bytes) :=
  match r with
  | .error e => .error (.backend e)
  | .ok value => .ok (client.unpacked value)

def counted (r : Except String (Option UInt64)) : Except CacheError UInt64 :=
  match r with
  | .error e => .error (.backend e)
  | .ok raw => .ok (raw.getD 0)

/-- The message that decides a call. -/
def message : BackendOp → Message
  | .get key => .get (entryKey client.config key)
  | .put key value ttl => .set ⟨entryKey client.config key, client.packed value, ttlSeconds ttl⟩
  | .generation n => .counter (.get (generationKey client.blake3 client.config n))
  | .bumpGeneration n => .counter (.increment (generationKey client.blake3 client.config n) 1)

/-- What a call makes of the reply to it. -/
def answer : (op : BackendOp) → (client.message op).Res → op.Res
  | .get _, r => client.received r
  | .put _ _ _, r => Except.mapError .backend r
  | .generation _, r => counted r
  | .bumpGeneration _, r => Except.mapError .backend r

/-- What a call is answered, at the message that decides it. -/
def point (call : BackendOp) (_ : Sent) : Sigma Message.Res → Option (Sigma BackendOp.Res)
  | ⟨.get _, r⟩ =>
    match call with
    | .get key => some ⟨.get key, client.received r⟩
    | _ => none
  | ⟨.set _, r⟩ =>
    match call with
    | .put key value ttl => some ⟨.put key value ttl, Except.mapError .backend r⟩
    | _ => none
  | ⟨.counter (.get _), r⟩ =>
    match call with
    | .generation n => some ⟨.generation n, counted r⟩
    | _ => none
  | ⟨.counter (.increment _ _), r⟩ =>
    match call with
    | .bumpGeneration n => some ⟨.bumpGeneration n, Except.mapError .backend r⟩
    | _ => none
  | ⟨.counter (.add _ _), _⟩ => none

/-- When a call sends which message. -/
inductive Sends (call : BackendOp) (done : Sent) (m : Message) : Prop
  | adds {n : String} (bump : call = .bumpGeneration n)
    (same : m = .counter (.add (generationKey client.blake3 client.config n) 0))
  | decides (same : m = client.message call) (added : ∀ n, call = .bumpGeneration n →
      ∃ r, ⟨.counter (.add (generationKey client.blake3 client.config n) 0), r⟩ ∈ done)

variable {client} {call : BackendOp} {done : Sent}

private theorem point_message (r : (client.message call).Res) :
    client.point call done ⟨client.message call, r⟩ = some ⟨call, client.answer call r⟩ := by
  cases call <;> rfl

/-- A call sends what it may, and returns what it has been answered at its point. -/
theorem obeys_program (call : BackendOp) : (client.program call).Obeys (client.Sends call)
    (fun reply done => taken (client.point call) done = [reply]) [] := by
  cases call with
  | get key =>
    refine ⟨.decides rfl fun n => nofun, fun reply => ?_⟩
    cases reply with
    | error e => rfl
    | ok value => rfl
  | put key value ttl =>
    refine ⟨.decides rfl fun n => nofun, fun reply => ?_⟩
    cases reply with
    | error e => rfl
    | ok stored => rfl
  | generation n =>
    refine ⟨.decides rfl fun n => nofun, fun reply => ?_⟩
    cases reply with
    | error e => rfl
    | ok raw => rfl
  | bumpGeneration n =>
    refine ⟨.adds rfl rfl, fun added => ⟨.decides rfl fun m same => ?_, fun reply => ?_⟩⟩
    · cases same
      exact ⟨added, List.mem_singleton_self _⟩
    · cases reply with
      | error e => rfl
      | ok raised => rfl

end MemcachedCacheBackend

/-! ### The server as a store -/

namespace Items

def number : Option Item → UInt64
  | some (.number n) => n
  | _ => 0

def store (client : MemcachedCacheBackend) (s : Items) : Store where
  content key := client.unpacked ((s (entryKey client.config key)).map Item.payload)
  counter n := number (s (generationKey client.blake3 client.config n))

/-- A generation is a number on the server. -/
def Present (client : MemcachedCacheBackend) (s : Items) (n : String) : Prop :=
  ∃ v, s (generationKey client.blake3 client.config n) = some (.number v)

/-- Nothing but numbers is stored where the generations are. -/
def Numbered (client : MemcachedCacheBackend) (s : Items) : Prop :=
  ∀ n payload, s (generationKey client.blake3 client.config n) ≠ some (.bytes payload)

/-- The generations that are numbers stay numbers. -/
structure Advances (client : MemcachedCacheBackend) (s s' : Items) : Prop where
  numbered : s.Numbered client → s'.Numbered client
  present : ∀ n, s.Present client n → s'.Present client n

end Items

section
variable {client : MemcachedCacheBackend} {s t : Items} {k n : String}

private theorem entryKey_inj {j k : String}
    (h : entryKey client.config j = entryKey client.config k) : j = k :=
  (String.append_right_inj _).mp ((String.append_right_inj _).mp h)

private theorem entryKey_ne_generationKey (k n : String) :
    entryKey client.config k ≠ generationKey client.blake3 client.config n := by
  intro h
  have := congrArg String.toList ((String.append_right_inj _).mp h)
  simp at this

private theorem generationKey_inj (hash : Function.Injective client.blake3) {m : String}
    (h : generationKey client.blake3 client.config m = generationKey client.blake3 client.config n) :
    m = n :=
  utf8_inj (hash ((String.append_right_inj _).mp ((String.append_right_inj _).mp h)))

/-- What has been packed is unpacked to what it was. -/
theorem unpacked_packed (codec : client.wrapper.compression = true → client.transcoder.RoundTrips)
    (value : Bytes) : client.unpacked (some (client.packed value)) = some value := by
  unfold MemcachedCacheBackend.packed MemcachedCacheBackend.unpacked
  cases compression : client.wrapper.compression with
  | false => rfl
  | true =>
    obtain ⟨compressed, encoded, decoded⟩ := codec compression value
    simp [encoded, decoded]

namespace Items

/-- A generation is not set, so it lasts or is another number. -/
theorem Advances.of_each (each : ∀ n,
    Lasts (s (generationKey client.blake3 client.config n)) (t (generationKey client.blake3 client.config n)) ∨
      ∃ v, t (generationKey client.blake3 client.config n) = some (.number v)) : s.Advances client t where
  numbered hs n payload := by
    intro present
    rcases each n with (same | ⟨gone, -⟩) | ⟨v, number⟩
    · exact hs n payload (same.symm.trans present)
    · rw [gone] at present
      cases present
    · rw [number] at present
      cases present
  present n := by
    rintro ⟨v, hv⟩
    rcases each n with (same | ⟨-, payload, before⟩) | number
    · exact ⟨v, same.trans hv⟩
    · rw [before] at hv
      cases hv
    · exact number

private theorem number_of_lasts {before after : Option Item} (lasts : Lasts before after) :
    number after = number before := by
  rcases lasts with same | ⟨gone, payload, present⟩
  · rw [same]
  · rw [gone, present]
    rfl

private theorem store_content (s : Items) (k : String) : (s.store client).content k =
    client.unpacked ((s (entryKey client.config k)).map Item.payload) := rfl

private theorem store_counter (s : Items) (n : String) : (s.store client).counter n =
    number (s (generationKey client.blake3 client.config n)) := rfl

private theorem content_of_absent (absent : t (entryKey client.config k) = none) {b : Bytes} :
    (t.store client).content k ≠ some b := by
  rw [store_content, absent]
  nofun

private theorem content_of_lasts
    (lasts : Lasts (s (entryKey client.config k)) (t (entryKey client.config k)))
    {b : Bytes} (found : (t.store client).content k = some b) : (s.store client).content k = some b := by
  rcases lasts with same | ⟨gone, -⟩
  · rwa [store_content, same] at found
  · exact absurd found (content_of_absent gone)

/-- What only lasts is a store that only loses entries. -/
theorem shrinks (lasts : ∀ k, Lasts (s k) (t k)) : (s.store client).Shrinks (t.store client) :=
  ⟨content_of_lasts (lasts _), funext fun _ => number_of_lasts (lasts _)⟩

theorem Advances.of_lasts (lasts : ∀ k, Lasts (s k) (t k)) : s.Advances client t :=
  .of_each fun _ => .inl (lasts _)

/-! ### What a message does to the store -/

/-- Zero is as good as nothing. -/
theorem shrinks_add {key : String} (lasts : ∀ l, l ≠ key → Lasts (s l) (t l)) (absent : s key = none)
    (added : t key = some (.number 0)) (generation : ∀ k, entryKey client.config k ≠ key) :
    (s.store client).Shrinks (t.store client) := by
  refine ⟨content_of_lasts (lasts _ (generation _)), funext fun n => ?_⟩
  rw [store_counter, store_counter]
  by_cases same : generationKey client.blake3 client.config n = key
  · rw [same, absent, added]
    rfl
  · exact number_of_lasts (lasts _ same)

/-- A `set` that is refused loses an entry at most. -/
theorem shrinks_refused (lasts : ∀ l, l ≠ entryKey client.config k → Lasts (s l) (t l))
    (refused : t (entryKey client.config k) = s (entryKey client.config k) ∨
      t (entryKey client.config k) = none) : (s.store client).Shrinks (t.store client) := by
  refine ⟨fun {j b} found => ?_, funext fun n => ?_⟩
  · by_cases same : j = k
    · subst same
      rcases refused with kept | gone
      · exact content_of_lasts (.inl kept) found
      · exact absurd found (content_of_absent gone)
    · exact content_of_lasts (lasts _ fun h => same (entryKey_inj h)) found
  · exact number_of_lasts (lasts _ (entryKey_ne_generationKey k n).symm)

private theorem shrinks_set
    (codec : client.wrapper.compression = true → client.transcoder.RoundTrips) {v : Bytes}
    (lasts : ∀ l, l ≠ entryKey client.config k → Lasts (s l) (t l))
    (stored : Lasts (some (.bytes (client.packed v))) (t (entryKey client.config k))) :
    ((s.store client).put k v).Shrinks (t.store client) := by
  refine ⟨fun {j b} found => ?_, funext fun n => ?_⟩
  · by_cases same : j = k
    · subst same
      rw [Store.put_content_self]
      rcases stored with kept | ⟨gone, -⟩
      · rw [store_content, kept] at found
        exact (unpacked_packed codec v).symm.trans found
      · exact absurd found (content_of_absent gone)
    · rw [Store.put_content_ne _ _ same]
      exact content_of_lasts (lasts _ fun h => same (entryKey_inj h)) found
  · exact number_of_lasts (lasts _ (entryKey_ne_generationKey k n).symm)

private theorem shrinks_increment (hash : Function.Injective client.blake3) {v : UInt64}
    (lasts : ∀ l, l ≠ generationKey client.blake3 client.config n → Lasts (s l) (t l))
    (found : s (generationKey client.blake3 client.config n) = some (.number v))
    (raised : t (generationKey client.blake3 client.config n) = some (.number (v + 1))) :
    ((s.store client).bump n).Shrinks (t.store client) := by
  refine ⟨content_of_lasts (lasts _ (entryKey_ne_generationKey _ n)), funext fun m => ?_⟩
  by_cases same : m = n
  · subst same
    rw [Store.bump_counter_self, store_counter, store_counter, found, raised]
    rfl
  · rw [Store.bump_counter_ne _ same]
    exact number_of_lasts (lasts _ fun h => same (generationKey_inj hash h))

end Items

variable {S : Server} {view : S.State → String → Option Item}

/-- The server carries out a call as the ideal store does, unless it refuses it; what has been set may be
lost meanwhile. A counter that is at its end starts again. -/
inductive Executed (view : S.State → String → Option Item) (client : MemcachedCacheBackend)
    (op : BackendOp) (s : S.State) (out : (client.message op).Res × S.State) : Prop
  | done (applied : ((Items.store client (view s)).apply op).Shrinks (Items.store client (view out.2)))
    (serves : (∀ n, op = .bumpGeneration n → (Items.store client (view s)).counter n ≠ u64Max) →
      Store.Serves op (client.answer op out.1) (Items.store client (view s))
        (Items.store client (view out.2)))
    (advances : Items.Advances client (view s) (view out.2))
  | refused (failed : op.Failed (client.answer op out.1))
    (lost : (Items.store client (view s)).Shrinks (Items.store client (view out.2)))
    (advances : Items.Advances client (view s) (view out.2))

private theorem saturatingAdd_one {c : UInt64} (room : c ≠ u64Max) : saturatingAdd c 1 = c + 1 := by
  have below : c.toNat + (1 : UInt64).toNat < 2 ^ 64 := by
    have top : c.toNat ≠ u64Max.toNat := fun same => room (UInt64.toNat_inj.mp same)
    have max : u64Max.toNat = 2 ^ 64 - 1 := by decide
    have one : (1 : UInt64).toNat = 1 := rfl
    have := c.toNat_lt
    omega
  rw [saturatingAdd, if_pos below]

/-- An error is a failure of the call. -/
theorem failed_of_error {op : BackendOp} {r : (client.message op).Res} {e : String}
    (error : r = (client.message op).failure e) : op.Failed (client.answer op r) := by
  subst error
  cases op <;> exact ⟨_, rfl⟩

theorem Server.Documented.everywhere (documented : S.Documented view) {re : S.Reaction} {m : Message}
    {s : S.State} (here : Lasts (view s m.key) (view (S.exec re m s).2 m.key)) (k : String) :
    Lasts (view s k) (view (S.exec re m s).2 k) := by
  by_cases same : k = m.key
  · rw [same]
    exact here
  · exact documented.elsewhere re m s k same

open Items in
/-- The messages that decide calls, by what is documented of the server. -/
theorem executed (documented : S.Documented view) (hash : Function.Injective client.blake3)
    (codec : client.wrapper.compression = true → client.transcoder.RoundTrips) {s : S.State}
    (numbered : Numbered client (view s)) (re : S.Reaction) (op : BackendOp)
    (present : ∀ n, op = .bumpGeneration n → Present client (view s) n) :
    Executed view client op s (S.exec re (client.message op) s) := by
  have elsewhere := documented.elsewhere re (client.message op) s
  cases op with
  | get k =>
    obtain ⟨lasts, reads⟩ := documented.get re (entryKey client.config k) s
    have everywhere := documented.everywhere (m := .get (entryKey client.config k)) lasts
    cases reply : (S.exec re (.get (entryKey client.config k)) s).1 with
    | error e => exact .refused (failed_of_error reply) (shrinks everywhere) (.of_lasts everywhere)
    | ok value =>
      refine .done (shrinks everywhere) (fun _ => ⟨?_, shrinks everywhere⟩) (.of_lasts everywhere)
      have answer : client.answer (.get k) (S.exec re (client.message (.get k)) s).1 =
          .ok (client.unpacked value) := congrArg client.received reply
      rw [answer]
      cases value with
      | none => exact .inl rfl
      | some payload =>
        obtain ⟨item, found, rfl⟩ := reads payload reply
        refine .inr (congrArg Except.ok ?_)
        rw [store_content, found]
        rfl
  | put k v ttl =>
    have advances : Advances client (view s) (view (S.exec re (client.message (.put k v ttl)) s).2) :=
      .of_each fun n => .inl (elsewhere _ (entryKey_ne_generationKey k n).symm)
    rcases documented.set re ⟨entryKey client.config k, client.packed v, ttlSeconds ttl⟩ s with
      ⟨reply, stored⟩ | ⟨e, reply, refused⟩
    · have put := shrinks_set codec elsewhere stored
      exact .done put (fun _ => ⟨congrArg (Except.mapError CacheError.backend) reply, put⟩) advances
    · exact .refused (failed_of_error reply) (shrinks_refused elsewhere refused) advances
  | generation n =>
    obtain ⟨lasts, reads⟩ := documented.getNumber re (generationKey client.blake3 client.config n) s
    have everywhere := documented.everywhere
      (m := .counter (.get (generationKey client.blake3 client.config n))) lasts
    cases reply : (S.exec re (.counter (.get (generationKey client.blake3 client.config n))) s).1 with
    | error e => exact .refused (failed_of_error reply) (shrinks everywhere) (.of_lasts everywhere)
    | ok number =>
      refine .done (shrinks everywhere) (fun _ => ⟨?_, shrinks everywhere⟩) (.of_lasts everywhere)
      have answer : client.answer (.generation n) (S.exec re (client.message (.generation n)) s).1 =
          .ok (number.getD 0) := congrArg MemcachedCacheBackend.counted reply
      obtain ⟨absent, counted⟩ := reads number reply
      rw [answer, store_counter]
      cases found : view s (generationKey client.blake3 client.config n) with
      | none =>
        rw [absent found]
        rfl
      | some item =>
        cases item with
        | bytes payload => exact absurd found (numbered n payload)
        | number v =>
          rw [counted v found]
          rfl
  | bumpGeneration n =>
    obtain ⟨v, found⟩ := present n rfl
    have value : (Items.store client (view s)).counter n = v := congrArg number found
    rcases documented.increment re (generationKey client.blake3 client.config n) 1 s v found with
      ⟨reply, raised⟩ | ⟨e, reply, same⟩
    · have bumped := shrinks_increment hash elsewhere found raised
      refine .done bumped (fun room => ⟨?_, bumped⟩) (.of_each fun m => ?_)
      · rw [value, saturatingAdd_one (value ▸ room n rfl)]
        exact congrArg (Except.mapError CacheError.backend) reply
      · by_cases here : generationKey client.blake3 client.config m =
          generationKey client.blake3 client.config n
        · rw [here]
          exact .inr ⟨v + 1, raised⟩
        · exact .inl (elsewhere _ here)
    · have everywhere := documented.everywhere
        (m := .counter (.increment (generationKey client.blake3 client.config n) 1)) (.inl same)
      exact .refused (failed_of_error reply) (shrinks everywhere) (.of_lasts everywhere)

open Items in
/-- An `add` for a generation makes sure that it is there. -/
theorem executed_add (documented : S.Documented view) {s : S.State}
    (numbered : Numbered client (view s)) (re : S.Reaction) (n : String) :
    let t := (S.exec re (.counter (.add (generationKey client.blake3 client.config n) 0)) s).2
    (Items.store client (view s)).Shrinks (Items.store client (view t)) ∧
      Advances client (view s) (view t) ∧ Present client (view t) n := by
  have elsewhere := documented.elsewhere re
    (.counter (.add (generationKey client.blake3 client.config n) 0)) s
  cases before : view s (generationKey client.blake3 client.config n) with
  | none =>
    have added := documented.add_absent re _ 0 s before
    refine ⟨shrinks_add elsewhere before added fun k => entryKey_ne_generationKey k n,
      .of_each fun m => ?_, 0, added⟩
    by_cases here : generationKey client.blake3 client.config m =
      generationKey client.blake3 client.config n
    · rw [here]
      exact .inr ⟨0, added⟩
    · exact .inl (elsewhere _ here)
  | some item =>
    have lasts := documented.add_present re (generationKey client.blake3 client.config n) 0 s
      (by rw [before]; exact Option.some_ne_none item)
    have everywhere := documented.everywhere
      (m := .counter (.add (generationKey client.blake3 client.config n) 0)) lasts
    have advances : Advances client (view s) _ := .of_lasts everywhere
    refine ⟨shrinks everywhere, advances, advances.present n ?_⟩
    cases item with
    | bytes payload => exact absurd before (numbered n payload)
    | number v => exact ⟨v, before⟩

end

/-! ### Runs -/

def Fate.heard : Fate → Bool
  | .answered | .lost _ => true
  | .late _ | .unheard _ => false

section
variable {T : Type} {S : Server} (view : S.State → String → Option Item)

/-- The server hears of an `add` before its client goes on, and no counter is at its end when it is
incremented. -/
def Heard : Restriction T Message Message.Res (Delivery S) (Network T S) := fun _ m ch w _ =>
  match m with
  | .counter (.add _ _) => ch.fate.heard = true
  | .counter (.increment key _) =>
    view (ch.before.foldl Network.happens w).server key ≠ some (.number u64Max)
  | _ => True

instance (t : T) (m : Message) (ch : Delivery S) (w : Network T S)
    (h : Interleaving.History T Message Message.Res) : Decidable (Heard view t m ch w h) :=
  match m with
  | .counter (.add _ _) => inferInstanceAs (Decidable (ch.fate.heard = true))
  | .counter (.increment key _) => inferInstanceAs
      (Decidable (view (ch.before.foldl Network.happens w).server key ≠ some (.number u64Max)))
  | .counter (.get _) | .set _ | .get _ => .isTrue trivial

end

section
variable {T : Type} {S : Server} (view : S.State → String → Option Item)
variable (client : MemcachedCacheBackend) (calls : T → BackendOp)

/-- The server as the store that its clients see. -/
def Network.remote (w : Network T S) : Remote :=
  ⟨Items.store client (view w.server), w.due.map fun c => calls c.1⟩

/-- What is on its way are the last messages of calls, and the generations that are waited for are there. -/
structure Sound (w : Network T S) (h : Interleaving.History T Message Message.Res) : Prop where
  numbered : Items.Numbered client (view w.server)
  due : ∀ t m, (t, m) ∈ w.due → m = client.message (calls t)
  awaited : ∀ t m n, (t, m) ∈ w.due → calls t = .bumpGeneration n →
    Items.Present client (view w.server) n
  added : ∀ t n r, ⟨t, .counter (.add (generationKey client.blake3 client.config n) 0), r⟩ ∈ h →
    Items.Present client (view w.server) n

variable {view client calls} {w u : Network T S} {h : Interleaving.History T Message Message.Res} {t : T}

theorem Sound.advance (sound : Sound view client calls w h) {server : S.State}
    (advances : Items.Advances client (view w.server) (view server)) :
    Sound view client calls { w with server := server } h where
  numbered := advances.numbered sound.numbered
  due := sound.due
  awaited t m n waits bump := advances.present n (sound.awaited t m n waits bump)
  added t n r hm := advances.present n (sound.added t n r hm)

theorem Sound.erase (sound : Sound view client calls w h) (position : Nat) :
    Sound view client calls { w with due := w.due.eraseIdx position } h where
  numbered := sound.numbered
  due t m hm := sound.due t m (List.mem_of_mem_eraseIdx hm)
  awaited t m n hm := sound.awaited t m n (List.mem_of_mem_eraseIdx hm)
  added := sound.added

/-- What happens without a call is a drift of the store. -/
theorem Sound.after (sound : Sound view client calls w h) (documented : S.Documented view)
    (hash : Function.Injective client.blake3)
    (codec : client.wrapper.compression = true → client.transcoder.RoundTrips) (event : Happening S) :
    Sound view client calls (w.happens event) h ∧
      (w.remote view client calls).Drifts ((w.happens event).remote view client calls) := by
  cases event with
  | befell incident =>
    have lasts := documented.befall incident w.server
    exact ⟨sound.advance (.of_lasts lasts), .single (.loses (Items.shrinks lasts))⟩
  | arrived position re =>
    cases found : w.due[position]? with
    | none =>
      rw [Network.happens, found]
      exact ⟨sound, .refl⟩
    | some c =>
      obtain ⟨t, m⟩ := c
      have waits := List.mem_of_getElem? found
      obtain rfl := sound.due t m waits
      have call : (w.due.map fun c => calls c.1)[position]? = some (calls t) := by
        rw [List.getElem?_map, found]
        rfl
      rw [Network.happens, found]
      rw [Network.remote, Network.remote]
      dsimp only
      rw [← List.eraseIdx_map]
      cases executed documented hash codec sound.numbered re (calls t)
        fun n bump => sound.awaited t _ n waits bump with
      | done applied _ advances =>
        exact ⟨(sound.advance advances).erase position,
          (Remote.drifts_arrived _ call).tail (.loses applied)⟩
      | refused _ lost advances =>
        exact ⟨(sound.advance advances).erase position,
          (Remote.drifts_dropped _ _ position).tail (.loses lost)⟩
  | dropped position =>
    refine ⟨sound.erase position, ?_⟩
    rw [Network.happens, Network.remote, Network.remote]
    dsimp only
    rw [← List.eraseIdx_map]
    exact Remote.drifts_dropped _ _ position

theorem Sound.happened (sound : Sound view client calls w h) (documented : S.Documented view)
    (hash : Function.Injective client.blake3)
    (codec : client.wrapper.compression = true → client.transcoder.RoundTrips)
    (events : List (Happening S)) :
    Sound view client calls (events.foldl Network.happens w) h ∧
      (w.remote view client calls).Drifts ((events.foldl Network.happens w).remote view client calls) := by
  induction events generalizing w with
  | nil => exact ⟨sound, .refl⟩
  | cons event events ih =>
    obtain ⟨next, drifts⟩ := sound.after documented hash codec event
    obtain ⟨last, later⟩ := ih next
    exact ⟨last, drifts.trans later⟩

/-- The last message of a call is no `add`. -/
private theorem message_ne_add (call : BackendOp) (key : String) (value : UInt64) :
    client.message call ≠ .counter (.add key value) := by
  cases call <;> nofun

theorem Sound.record (sound : Sound view client calls w h) (r : (client.message (calls t)).Res) :
    Sound view client calls w (⟨t, client.message (calls t), r⟩ :: h) where
  numbered := sound.numbered
  due := sound.due
  awaited := sound.awaited
  added s n q hm := by
    rcases List.mem_cons.mp hm with same | before
    · exact absurd (Event.mk.inj same).2.1.symm (message_ne_add _ _ _)
    · exact sound.added s n q before

/-- The last message of a call does what the call asks for, or fails. -/
theorem Sound.decided (sound : Sound view client calls w h) (documented : S.Documented view)
    (hash : Function.Injective client.blake3)
    (codec : client.wrapper.compression = true → client.transcoder.RoundTrips)
    (present : ∀ n, calls t = .bumpGeneration n → Items.Present client (view w.server) n)
    (room : ∀ n, calls t = .bumpGeneration n →
      (Items.store client (view w.server)).counter n ≠ u64Max)
    (re : S.Reaction) (fate : Fate) :
    Sound view client calls (w.deliver t (client.message (calls t)) re fate).2 h ∧
      Remote.Answers (calls t) (client.answer (calls t) (w.deliver t (client.message (calls t)) re fate).1)
        (w.remote view client calls)
        ((w.deliver t (client.message (calls t)) re fate).2.remote view client calls) := by
  have executed := executed documented hash codec sound.numbered re (calls t) present
  have heard : Sound view client calls (w.hear (client.message (calls t)) re) h ∧
      Store.Fails (calls t) (Items.store client (view w.server))
        (Items.store client (view (w.hear (client.message (calls t)) re).server)) := by
    cases executed with
    | done applied _ advances => exact ⟨sound.advance advances, Store.fails_of_apply applied⟩
    | refused _ lost advances => exact ⟨sound.advance advances, Store.fails_of_shrinks lost⟩
  obtain ⟨advanced, fails⟩ := heard
  cases fate with
  | answered =>
    refine ⟨advanced, ?_⟩
    cases executed with
    | done _ serves _ => exact .serves (serves room)
    | refused failed _ _ => exact .fails failed fails
  | lost e => exact ⟨advanced, .fails (failed_of_error rfl) fails⟩
  | late e =>
    refine ⟨⟨sound.numbered, fun s m hm => ?_, fun s m n hm bump => ?_, sound.added⟩,
      .delayed (failed_of_error rfl)⟩
    · rcases List.mem_cons.mp hm with same | before
      · cases same
        rfl
      · exact sound.due s m before
    · rcases List.mem_cons.mp hm with same | before
      · cases same
        exact present n bump
      · exact sound.awaited s m n before bump
  | unheard e => exact ⟨sound, .fails (failed_of_error rfl) (Store.fails_of_shrinks (.refl _))⟩

/-- An `add` that the server hears of is a drift for the clients. -/
theorem Sound.add (sound : Sound view client calls w h) (documented : S.Documented view) {n : String}
    (re : S.Reaction) {fate : Fate} (heard : fate.heard = true) {r : Except String Unit}
    {u : Network T S}
    (delivered : w.deliver t (.counter (.add (generationKey client.blake3 client.config n) 0)) re fate =
      (r, u)) :
    Sound view client calls u
        (⟨t, .counter (.add (generationKey client.blake3 client.config n) 0), r⟩ :: h) ∧
      (w.remote view client calls).Drifts (u.remote view client calls) := by
  have same : u = w.hear (.counter (.add (generationKey client.blake3 client.config n) 0)) re := by
    cases fate with
    | answered | lost => exact (Prod.mk.inj delivered).2.symm
    | late | unheard => cases heard
  subst same
  obtain ⟨lost, advances, added⟩ := executed_add documented sound.numbered re n
  have advanced := sound.advance advances
  refine ⟨⟨advanced.numbered, advanced.due, advanced.awaited, fun s m q hm => ?_⟩, .single (.loses lost)⟩
  rcases List.mem_cons.mp hm with same | before
  · have key := (Op.add.inj (Message.counter.inj (Event.mk.inj same).2.1)).1
    obtain ⟨v, present⟩ := added
    exact ⟨v, key ▸ present⟩
  · exact advanced.added s m q before

end

section
variable {T : Type} [DecidableEq T] {client : MemcachedCacheBackend} {calls : T → BackendOp}
variable {S : Server} {view : S.State → String → Option Item} {server : S.State}

/-- A bump has added its counter before. -/
theorem Sound.present {w : Network T S} {h : Interleaving.History T Message Message.Res} {t : T}
    (sound : Sound view client calls w h) (added : ∀ n, calls t = .bumpGeneration n →
      ∃ r, ⟨.counter (.add (generationKey client.blake3 client.config n) 0), r⟩ ∈ h.own t) (n : String)
    (bump : calls t = .bumpGeneration n) : Items.Present client (view w.server) n := by
  obtain ⟨r, hr⟩ := added n bump
  exact sound.added t n r (History.mem_own.mp hr)

/-- One message keeps all sound, and has the effect of its point. -/
theorem Sound.step (documented : S.Documented view) (hash : Function.Injective client.blake3)
    (codec : client.wrapper.compression = true → client.transcoder.RoundTrips) {t : T} {m : Message}
    {ch : Delivery S} {w u : Network T S} {h : Interleaving.History T Message Message.Res} {r : m.Res}
    (sound : Sound view client calls w h) (sends : client.Sends (calls t) (h.own t) m)
    (heard : Heard view t m ch w h) (performed : (network T S).perform t m ch w = some (r, u)) :
    Sound view client calls u (⟨t, m, r⟩ :: h) ∧ Effect Remote.Serves Remote.Drifts
      (client.point (calls t) (h.own t) ⟨m, r⟩) (w.remote view client calls)
      (u.remote view client calls) := by
  have delivered := Option.some.inj performed
  obtain ⟨before, drifts⟩ := sound.happened documented hash codec ch.before
  cases sends with
  | adds bump same =>
    subst same
    obtain ⟨after, adds⟩ := before.add documented ch.reaction heard delivered
    exact ⟨after, drifts.trans adds⟩
  | decides same added =>
    subst same
    have present := before.present added
    have room (n : String) (bump : calls t = .bumpGeneration n) :
        (Items.store client (view (ch.before.foldl Network.happens w).server)).counter n ≠ u64Max := by
      obtain ⟨v, found⟩ := present n bump
      intro top
      rw [bump] at heard
      refine heard (found.trans ?_)
      rw [← top]
      exact congrArg (fun v => some (Item.number v)) (congrArg Items.number found).symm
    have decided := before.decided (t := t) documented hash codec present room ch.reaction ch.fate
    rw [delivered] at decided
    rw [MemcachedCacheBackend.point_message]
    exact ⟨decided.1.record r, _, drifts, decided.2⟩

omit [DecidableEq T] in
private theorem sound_initial (numbered : Items.Numbered client (view server)) :
    Sound view client calls (clients client calls server).world (clients client calls server).history where
  numbered := numbered
  due _ _ hm := by cases hm
  awaited _ _ _ hm := by cases hm
  added _ _ _ hm := by cases hm

/-- The points of the calls are a linearization. -/
theorem linearizes_clients (documented : S.Documented view) (hash : Function.Injective client.blake3)
    (codec : client.wrapper.compression = true → client.transcoder.RoundTrips)
    (numbered : Items.Numbered client (view server))
    {d : Config T Message Message.Res (Network T S) (Sigma BackendOp.Res)}
    (run : Reaches (network T S) (Heard view) (clients client calls server) d) :
    ∃ order, Linearizes Remote.Serves Remote.Drifts ⟨Items.store client (view server), []⟩
      (d.world.remote view client calls) d.history d.returned order := by
  have preserves : PreservesLawful (network T S) (Heard view) (fun t => client.Sends (calls t))
      (Sound view client calls) := fun _ _ _ _ _ _ _ _ sound sends heard performed =>
    (sound.step documented hash codec sends heard performed).1
  have effects : Effects (network T S) (Heard view) (fun t => client.Sends (calls t))
      (Sound view client calls) (fun t => client.point (calls t)) Remote.Serves Remote.Drifts
      (Network.remote view client calls) :=
    fun _ _ _ _ _ _ _ _ sound sends heard performed =>
      (sound.step documented hash codec sends heard performed).2
  have obeys : (clients client calls server).Obeys (fun t => client.Sends (calls t))
      fun t reply done => taken (client.point (calls t)) done = [reply] :=
    fun t => MemcachedCacheBackend.obeys_program (calls t)
  refine ⟨_, run.linearizes preserves effects obeys rfl (sound_initial numbered) fun t c told => ?_⟩
  exact (run.obeys obeys).returned (Config.returned_eq_some.mp told)

/-- Over any server that does what is documented, however the messages of calls of any number of clients
overlap, whichever of them or of their replies get lost or late, and whatever entries the server forgets in
between: the calls take effect one after the other, each at one moment between its begin and its end. In
that order they are calls of a store at the other end of a network. No `add` is late, and no counter is
incremented at its end. -/
theorem overlapping_clients_linearize (documented : S.Documented view)
    (hash : Function.Injective client.blake3)
    (codec : client.wrapper.compression = true → client.transcoder.RoundTrips)
    (numbered : Items.Numbered client (view server))
    {d : Config T Message Message.Res (Network T S) (Sigma BackendOp.Res)}
    (run : Reaches (network T S) (Heard view) (clients client calls server) d) :
    ∃ order, Linearizes Remote.Serves Remote.Drifts ⟨Items.store client (view server), []⟩
      (d.world.remote view client calls) d.history d.returned order :=
  linearizes_clients documented hash codec numbered run

end

/-! ### Runs -/

namespace Sample

/-- A header in front of what is compressed. -/
def transcoder : CompressorTranscoder where
  encode value := .ok (31 :: value)
  decode bytes := if bytes.head? = some 31 then .ok bytes.tail else .error "invalid gzip header"

theorem transcoder_roundTrips : transcoder.RoundTrips := fun value => ⟨31 :: value, rfl, rfl⟩

def client : MemcachedCacheBackend := ⟨RbatisCache.Sample.hash, transcoder, {}, ⟨true⟩⟩

/-- A put, two reads of its key and two bumps. -/
def calls : Fin 5 → BackendOp
  | 0 => .put "k" [1] (.fromSecs 60)
  | 1 | 2 => .get "k"
  | 3 | 4 => .bumpGeneration "ns"

/-- A server that holds nothing. -/
def nothing : Items.server.State := fun _ => none

theorem numbered : Items.Numbered client (Items.view nothing) := fun _ _ => (Option.some_ne_none _).symm

/-- A message that is answered. -/
def plain : Delivery Items.server := { reaction := ({} : Reaction) }

end Sample

/-- The put is late: one read finds nothing, and the next one finds what has been put. -/
theorem late_put_linearizes : ∃ d : Config (Fin 5) Message Message.Res (Network (Fin 5) Items.server)
      (Sigma BackendOp.Res),
    d.returned 0 = some ⟨.put "k" [1] (.fromSecs 60), .error (.backend "timeout")⟩ ∧
    d.returned 1 = some ⟨.get "k", .ok none⟩ ∧ d.returned 2 = some ⟨.get "k", .ok (some [1])⟩ ∧
    d.returned 4 = some ⟨.bumpGeneration "ns", .ok 2⟩ ∧
    ∃ order, Linearizes Remote.Serves Remote.Drifts ⟨Items.store Sample.client (Items.view Sample.nothing), []⟩
      (d.world.remote Items.view Sample.client Sample.calls) d.history d.returned order := by
  obtain ⟨d, run, seen⟩ := play_observed (M := network (Fin 5) Items.server) (A := Heard Items.view)
    (c := clients Sample.client Sample.calls Sample.nothing)
    [(3, Sample.plain), (4, Sample.plain), (0, { Sample.plain with fate := .late "timeout" }),
      (1, Sample.plain), (3, Sample.plain), (4, Sample.plain),
      (2, { Sample.plain with before := [.arrived 0 Sample.plain.reaction] })]
    (fun d => decide (
      d.returned 0 = some ⟨.put "k" [1] (.fromSecs 60), .error (.backend "timeout")⟩ ∧
      d.returned 1 = some ⟨.get "k", .ok none⟩ ∧ d.returned 2 = some ⟨.get "k", .ok (some [1])⟩ ∧
      d.returned 4 = some ⟨.bumpGeneration "ns", .ok 2⟩))
    (by decide +kernel)
  obtain ⟨late, early, found, bumped⟩ := of_decide_eq_true seen
  exact ⟨d, late, early, found, bumped, overlapping_clients_linearize Items.documented
    RbatisCache.Sample.hash_injective (fun _ => Sample.transcoder_roundTrips)
    Sample.numbered run⟩

end RbatisCache.Memcached
