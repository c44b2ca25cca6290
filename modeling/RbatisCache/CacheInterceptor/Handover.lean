import RbatisCache.CacheInterceptor.Cancellation
import RbatisCache.CacheInterceptor.FailOpen
import RbatisCache.Interleaving.Counting

/-! What a dropped call leaves undone another call takes over: each drop costs at most one load. -/
namespace RbatisCache.CacheInterceptor
open Interleaving Interleaving.Prog

section
variable {P : Type}

def Stores (done : Done P) : Prop := ∃ k b ttl r, ⟨.backend (.put k b ttl), r⟩ ∈ done

/-- How far a call is with its load, by its journal. -/
inductive Brief : Done P → Prop
  | nothing : Brief []
  | started : Brief [⟨.loaderStart, ()⟩]
  | loaded (a : (Op.databaseRead).Res P) : Brief [⟨.databaseRead, a⟩, ⟨.loaderStart, ()⟩]
  | stored {k : String} {b : Bytes} {ttl : Duration} (r : (BackendOp.put k b ttl).Res)
      (a : (Op.databaseRead).Res P) :
      Brief [⟨.backend (.put k b ttl), r⟩, ⟨.databaseRead, a⟩, ⟨.loaderStart, ()⟩]

variable (X : Externals P) (policy : CachePolicy) (request : CacheRequest)

/-- How far a call of this stage is with its load. -/
def LoggedAt : Stage → Done P → Prop
  | .outside, done | .waiting _ _, done | .inside _ _ .locked, done | .inside _ _ .missed, done =>
    journal done = []
  | .inside _ _ .started, done => journal done = [⟨.loaderStart, ()⟩]
  | .inside _ _ .loaded, done => ∃ a, journal done = [⟨.databaseRead, a⟩, ⟨.loaderStart, ()⟩]
  | .inside _ _ .filled, done => Brief (journal done) ∧ Stores done
  | .unlocked _ _, done | .released _, done | .gone, done => Brief (journal done) ∧
    (journal done = [] ∨ Stores done ∨ ∃ g key, Keyed X request.key g key done ∧
      NotStored X policy key done)

/-- A call either loads without a flight, or its stage tells what it has done about its load. -/
def Logged (done : Done P) : Prop :=
  Unkeyed X request done ∨ LoggedAt X policy request (stageOf done) done

variable {X policy request} {done later : Done P} {op : Op} {s : Stage}

theorem Stores.grow (h : Stores done) (hl : done <:+ later) : Stores later := by
  obtain ⟨k, b, ttl, r, put⟩ := h
  exact ⟨k, b, ttl, r, hl.subset put⟩

theorem LoggedAt.frame (h : LoggedAt X policy request s done) (same : journal later = journal done)
    (hl : done <:+ later) : LoggedAt X policy request s later := by
  have left (h : Brief (journal done) ∧ (journal done = [] ∨ Stores done ∨
      ∃ g key, Keyed X request.key g key done ∧ NotStored X policy key done)) :
      Brief (journal later) ∧ (journal later = [] ∨ Stores later ∨
        ∃ g key, Keyed X request.key g key later ∧ NotStored X policy key later) := by
    rw [same]
    refine ⟨h.1, h.2.imp id (Or.imp (·.grow hl) ?_)⟩
    rintro ⟨g, key, keyed, away⟩
    exact ⟨g, key, keyed.grow hl, away.grow hl⟩
  cases s with
  | outside | waiting _ _ => exact same.trans h
  | unlocked _ _ | released _ | gone => exact left h
  | inside d f p =>
    cases p with
    | locked | missed | started => exact same.trans h
    | loaded =>
      obtain ⟨a, h⟩ := h
      exact ⟨a, same.trans h⟩
    | filled => exact ⟨same ▸ h.1, h.2.grow hl⟩

theorem LoggedAt.brief (h : LoggedAt X policy request s done) : Brief (journal done) := by
  cases s with
  | outside | waiting _ _ =>
    rw [show journal done = [] from h]
    exact .nothing
  | unlocked _ _ | released _ | gone => exact h.1
  | inside d f p =>
    cases p with
    | locked | missed =>
      rw [show journal done = [] from h]
      exact .nothing
    | started =>
      rw [show journal done = _ from h]
      exact .started
    | loaded =>
      obtain ⟨a, h⟩ := h
      rw [h]
      exact .loaded a
    | filled => exact h.1

/-- Every step of a call under its rule. -/
theorem LoggedAt.cons (h : LoggedAt X policy request (stageOf done) done)
    (keyed : ¬ Unkeyed X request done) (allowed : callRule X policy request done op) (r : op.Res P) :
    LoggedAt X policy request (stageOf (⟨op, r⟩ :: done)) (⟨op, r⟩ :: done) := by
  rw [stageOf_cons]
  have grown := List.suffix_cons (⟨op, r⟩ : Sigma (Op.Res P)) done
  -- steps that neither load nor fill, of a call that stays where it is
  have frame (loud : op.isLoud = false) (next : (stageOf done).next op r = stageOf done) :
      LoggedAt X policy request ((stageOf done).next op r) (⟨op, r⟩ :: done) := by
    rw [next]
    exact h.frame (by simp [journal, loud]) grown
  cases op with
  | backend o =>
    cases o with
    | generation n => exact frame rfl (by cases stageOf done <;> rfl)
    | get k => exact frame rfl (by cases stageOf done <;> rfl)
    | bumpGeneration n => exact allowed.elim
    | put k b ttl =>
      obtain ⟨g, key, p, now, -, -, -, -, f, hs⟩ := allowed
      rw [hs] at h
      obtain ⟨a, h⟩ := h
      rw [hs]
      refine ⟨?_, k, b, ttl, r, List.mem_cons_self⟩
      rw [show journal (⟨.backend (.put k b ttl), r⟩ :: done) = ⟨_, r⟩ :: journal done from rfl, h]
      exact .stored r a
  | nowMs | loaderFinish => exact frame rfl (by cases stageOf done <;> rfl)
  | databaseWrite => exact allowed.elim
  | record m =>
    cases m with
    | hit | miss | bypass | backendError | invalidation =>
      exact frame rfl (by cases stageOf done <;> rfl)
    | load =>
      rcases allowed with hs | ⟨g, key, f, -, hs, -⟩
      · exact frame rfl (by rw [hs]; rfl)
      · rw [hs] at h
        rw [hs]
        exact h
  | flightsEntry d =>
    have hs : stageOf done = .outside := allowed.1
    rw [hs] at h
    rw [hs]
    exact h
  | lock f =>
    obtain ⟨d, hs⟩ := allowed
    rw [hs] at h
    rw [hs]
    exact h
  | loaderStart =>
    rcases allowed with ⟨-, unkeyed⟩ | ⟨g, key, f, -, hs⟩
    · exact absurd unkeyed keyed
    · rw [hs] at h
      rw [hs]
      exact congrArg (List.cons ⟨.loaderStart, ()⟩) h
  | databaseRead =>
    rcases allowed with ⟨-, unkeyed⟩ | ⟨g, key, f, -, hs⟩
    · exact absurd unkeyed keyed
    · rw [hs] at h
      rw [hs]
      refine ⟨r, ?_⟩
      rw [show journal (⟨.databaseRead, r⟩ :: done) = ⟨.databaseRead, r⟩ :: journal done from rfl, h]
  | unlock f =>
    obtain ⟨g, key, phase, read, hs, rest⟩ := allowed
    have brief := h.brief
    rw [hs] at h
    rw [hs]
    refine ⟨brief, ?_⟩
    rcases rest with rfl | rfl | ⟨rfl, away⟩
    · exact .inl h
    · exact .inr (.inl (h.2.grow grown))
    · exact .inr (.inr ⟨g, key, read.grow grown, away.grow grown⟩)
  | releaseFlight d f =>
    have hs : stageOf done = .unlocked d f := allowed
    rw [hs] at h
    rw [hs]
    exact (show LoggedAt X policy request (.released f) done from h).frame rfl grown
  | dropFlight f =>
    rcases allowed with ⟨d, hs⟩ | hs
    · rw [hs] at h ⊢
      exact (show LoggedAt X policy request .gone done from h).frame rfl grown
    · rw [hs] at h ⊢
      exact (show LoggedAt X policy request .gone done from h).frame rfl grown

theorem Logged.cons (h : Logged X policy request done) (allowed : callRule X policy request done op)
    (r : op.Res P) : Logged X policy request (⟨op, r⟩ :: done) := by
  by_cases unkeyed : Unkeyed X request done
  · exact .inl unkeyed.cons
  · exact .inr ((h.resolve_left unkeyed).cons unkeyed allowed r)

variable (X policy request) in
/-- What a call has made sure of that may be dropped. -/
def handoverRule (done : Done P) (op : Op) : Prop :=
  heldBy done = stageOf done ∧ Logged X policy request done ∧ callRule X policy request done op ∨
    (heldBy done).Quits op

variable (X policy request) in
structure HandoverEnd (reply : Option (Reply P)) (done : Done P) : Prop where
  clear : heldBy done = .outside ∨ heldBy done = .gone
  replied : ∀ r, reply = some r → heldBy done = stageOf done ∧ Logged X policy request done ∧
    ∃ a, r = .payload a ∧ CallEnd X policy request a done

private theorem obeys_handover (patience : Nat) :
    ((Task.getOrLoad request).droppable X policy patience).Obeys (handoverRule X policy request)
      (HandoverEnd X policy request) [] := by
  refine Obeys.droppable
    (K := fun done => heldBy done = stageOf done ∧ Logged X policy request done)
    (fun done op kept allowed => .inl ⟨kept.1, kept.2, allowed⟩)
    (fun done op r kept allowed => ⟨?_, kept.2.cons allowed r⟩)
    (fun reply done kept ends => ⟨?_, ?_⟩) (fun done kept => ?_) ⟨rfl, .inr rfl⟩
    (obeys_program (.getOrLoad request))
  · rw [heldBy_cons, kept.1, stageOf_cons]
    exact Stage.after_of_admits
      (Task.admits (show (Task.getOrLoad request).rule X policy done op from allowed)) r
  · rw [kept.1]
    exact Task.clear_of_end ends
  · intro r hr
    cases hr
    exact ⟨kept.1, kept.2, ends⟩
  · exact (obeys_dropLocals (fun _ _ quits => .inr quits) kept.1).mono fun _ _ clear => ⟨clear, nofun⟩

end

/-! ### The calls for one key -/

section
variable {B : CacheBackend} {P T : Type} [DecidableEq T]

/-- What the cache holds is what one call has stored after its load. -/
inductive StoredOnce (X : Externals P) (policy : CachePolicy) (key : CacheKey) (h : History P T) :
    Option Bytes → Prop
  | empty (nobody : ∀ t, ¬ Stores (h.own t)) : StoredOnce X policy key h none
  | stored {t : T} {p : P} {bytes : Bytes} {now : UInt64}
      (decoded : CacheEnvelope.decode X bytes = .ok (CacheEnvelope.new key p policy.ttl now))
      (read : ⟨t, .databaseRead, .ok p⟩ ∈ h) (only : ∀ s, Stores (h.own s) → s = t) :
      StoredOnce X policy key h (some bytes)

/-- The invariant of the runs in which all calls are for one key and may be dropped. -/
structure Handover (X : Externals P) (policy : CachePolicy) (abs : B.State → Store) (key : CacheKey)
    (counter : String → UInt64) (w : World B T) (h : History P T) : Prop extends
    Lookups X abs key counter (holdings h) w h where
  reads : ∀ t a, ⟨t, .databaseRead, a⟩ ∈ h → ∃ p, a = .ok p ∧ X.len p ≤ policy.maxValueSize
  brief : ∀ t, Brief (journal (h.own t))
  stored : StoredOnce X policy key h ((abs w.backend).content key.digest)

variable {X : Externals P} {policy : CachePolicy} {abs : B.State → Store} {key : CacheKey}
variable {counter : String → UInt64} {w u : World B T} {h : History P T} {t : T} {op : Op}
variable {r : op.Res P} {request : CacheRequest}

private theorem holdings_cons_self : holdings (⟨t, op, r⟩ :: h) t = (holdings h t).after op r := by
  rw [holdings_cons, Function.update_self]

private theorem holdings_cons_ne {s : T} (hs : s ≠ t) :
    holdings (⟨t, op, r⟩ :: h) s = holdings h s := by
  rw [holdings_cons, Function.update_of_ne hs]

private theorem holdings_cons_still (still : (holdings h t).after op r = holdings h t) :
    holdings (⟨t, op, r⟩ :: h) = holdings h := by
  rw [holdings_cons, still, Function.update_eq_self]

/-- A call past its check under the lock has been there before, or goes to load now. -/
theorem Stage.inside_of_after {s : Stage} {d : String} {f : FlightId} {p : Phase}
    (now : s.after op r = .inside d f p) (hl : p ≠ .locked) (hf : p ≠ .filled) :
    s = .inside d f .locked ∧ op = .record .load ∨
      ∃ q, q ≠ .locked ∧ q ≠ .filled ∧ s = .inside d f q := by
  unfold Stage.after at now
  split at now
  · cases now
  · unfold Stage.next at now
    split at now <;> simp_all

theorem StoredOnce.cons {content : Option Bytes} (hi : StoredOnce X policy key h content)
    (quiet : ∀ k b ttl, op ≠ .backend (.put k b ttl)) :
    StoredOnce X policy key (⟨t, op, r⟩ :: h) content := by
  have old {s : T} (hs : Stores (History.own (⟨t, op, r⟩ :: h) s)) : Stores (h.own s) := by
    obtain ⟨k, b, ttl, a, put⟩ := hs
    rcases List.mem_cons.mp (History.mem_own.mp put) with he | put
    · cases he
      exact absurd rfl (quiet k b ttl)
    · exact ⟨k, b, ttl, a, History.mem_own.mpr put⟩
  cases hi with
  | empty nobody => exact .empty fun s hs => nobody s (old hs)
  | stored decoded read only =>
    exact .stored decoded (List.mem_cons_of_mem _ read) fun s hs => only s (old hs)

theorem StoredOnce.decoded {content : Option Bytes} {bytes : Bytes}
    (hi : StoredOnce X policy key h content) (hb : content = some bytes) : ∃ t p now,
      CacheEnvelope.decode X bytes = .ok (CacheEnvelope.new key p policy.ttl now) ∧
      ⟨t, .databaseRead, .ok p⟩ ∈ h ∧ ∀ s, Stores (h.own s) → s = t := by
  cases hi with
  | empty nobody => cases hb
  | stored decoded read only =>
    cases hb
    exact ⟨_, _, _, decoded, read, only⟩

/-- At most one call has stored. -/
theorem StoredOnce.one [Fintype T] {content : Option Bytes}
    (hi : StoredOnce X policy key h content) :
    ∃ one : T → Nat, ∑ t, one t ≤ 1 ∧ ∀ t, Stores (h.own t) → one t = 1 := by
  cases hi with
  | empty nobody => exact ⟨fun _ => 0, by simp, fun t ht => absurd ht (nobody t)⟩
  | @stored t _ _ _ _ _ only =>
    refine ⟨fun s => if s = t then 1 else 0, by simp, fun s hs => ?_⟩
    exact if_pos (only s hs)

/-- A check under the flight lock that finds nothing has found nothing in the cache. -/
theorem Handover.missed (hi : Handover X policy abs key counter w h) {f : FlightId}
    (hs : holdings h t = .inside key.digest f .locked) (hm : Missed X key (h.own t)) :
    (abs w.backend).content key.digest = none := by
  have decodes (bytes : Bytes) (hb : (abs w.backend).content key.digest = some bytes) :
      ∃ p now, CacheEnvelope.decode X bytes = .ok (CacheEnvelope.new key p policy.ttl now) := by
    obtain ⟨_, p, now, decoded, -⟩ := hi.stored.decoded hb
    exact ⟨p, now, decoded⟩
  exact hi.toLookups.missed decodes hs hm

/-- Operations that do not change the entry of the key. -/
theorem Handover.frame (hi : Handover X policy abs key counter w h)
    (lookups : Lookups X abs key counter (holdings (⟨t, op, r⟩ :: h)) u (⟨t, op, r⟩ :: h))
    (content : (abs u.backend).content key.digest = (abs w.backend).content key.digest)
    (reads : ∀ a, (⟨op, r⟩ : Sigma (Op.Res P)) = ⟨.databaseRead, a⟩ →
      ∃ p, a = .ok p ∧ X.len p ≤ policy.maxValueSize)
    (brief : Brief (journal (History.own (⟨t, op, r⟩ :: h) t)))
    (quiet : ∀ k b ttl, op ≠ .backend (.put k b ttl)) :
    Handover X policy abs key counter u (⟨t, op, r⟩ :: h) where
  toLookups := lookups
  reads s a hm := by
    rcases List.mem_cons.mp hm with he | hm
    · cases he
      exact reads a rfl
    · exact hi.reads s a hm
  brief s := by
    by_cases hst : s = t
    · subst hst
      exact brief
    · rw [History.own_cons_ne (Ne.symm hst)]
      exact hi.brief s
  stored := by
    rw [content]
    exact hi.stored.cons quiet

theorem Handover.put (hi : Handover X policy abs key counter w h) (codec : X.RoundTrips)
    {f : FlightId} (hs : holdings h t = .inside key.digest f .loaded) {p : P} {now : UInt64}
    {bytes : Bytes} {ttl : Duration} {r : (BackendOp.put key.digest bytes ttl).Res}
    (read : ⟨.databaseRead, .ok p⟩ ∈ h.own t)
    (encoded : (CacheEnvelope.new key p policy.ttl now).encode X = .ok bytes)
    (tracks : Tracks u (holdings (⟨t, .backend (.put key.digest bytes ttl), r⟩ :: h)))
    (brief : Brief (journal (History.own (⟨t, .backend (.put key.digest bytes ttl), r⟩ :: h) t)))
    (keeps : Store.Keeps (.put key.digest bytes ttl) r (abs w.backend) (abs u.backend)) :
    Handover X policy abs key counter u (⟨t, .backend (.put key.digest bytes ttl), r⟩ :: h) := by
  obtain ⟨-, put⟩ := keeps
  have none := hi.missing t f _ hs (by simp) (by simp)
  have nobody : ∀ s, ¬ Stores (h.own s) := by
    have stored := hi.stored
    rw [none] at stored
    cases stored with
    | empty nobody => exact nobody
  refine ⟨hi.toLookups.put hs tracks (fun s hs => holdings_cons_ne hs) ?_ put, fun s a hm => ?_,
    fun s => ?_, ?_⟩
  · rw [holdings_cons_self, hs]
    rfl
  · rcases List.mem_cons.mp hm with he | hm
    · cases he
    · exact hi.reads s a hm
  · by_cases hst : s = t
    · subst hst
      exact brief
    · rw [History.own_cons_ne (Ne.symm hst)]
      exact hi.brief s
  · rw [put, Store.put_content_self]
    refine .stored (CacheEnvelope.decode_encode codec encoded)
      (List.mem_cons_of_mem _ (History.mem_own.mp read)) fun s hstores => ?_
    by_contra hst
    rw [History.own_cons_ne (Ne.symm hst)] at hstores
    exact nobody s hstores

/-- Operations that have nothing to do with the backend or the clock. -/
theorem Handover.other (hi : Handover X policy abs key counter w h)
    (tracks : Tracks u (holdings (⟨t, op, r⟩ :: h))) (hb : u.backend = w.backend)
    (hop : ∀ o, op ≠ .backend o) (hnow : op ≠ .nowMs)
    (load : op = .record .load → ∀ f, holdings h t = .inside key.digest f .locked →
      (abs w.backend).content key.digest = none)
    (reads : ∀ a, (⟨op, r⟩ : Sigma (Op.Res P)) = ⟨.databaseRead, a⟩ →
      ∃ p, a = .ok p ∧ X.len p ≤ policy.maxValueSize)
    (brief : Brief (journal (History.own (⟨t, op, r⟩ :: h) t))) :
    Handover X policy abs key counter u (⟨t, op, r⟩ :: h) := by
  refine hi.frame (hi.toLookups.other tracks (fun s hs => holdings_cons_ne hs) hb hop hnow ?_)
    (by rw [hb]) reads brief fun k b ttl => hop _
  intro f p hs h1 h2
  rw [holdings_cons_self] at hs
  rcases Stage.inside_of_after hs h1 h2 with ⟨locked, now⟩ | ⟨q, hq, hq', before⟩
  · exact load now f locked
  · exact hi.missing t f q before hq hq'

/-- Every step of a call for the key under its rule, in a lossless run. -/
theorem Handover.stepped (hi : Handover X policy abs key counter w h)
    (same : SameKey X key counter request) (codec : X.RoundTrips) {ch : Choice B P}
    (held : heldBy (h.own t) = stageOf (h.own t)) (logged : Logged X policy request (h.own t))
    (allowed : callRule X policy request (h.own t) op) (ha : Lossless X policy abs t op ch w h)
    (hm : (machine B P T).perform t op ch w = some (r, u))
    (tracks : Tracks u (holdings (⟨t, op, r⟩ :: h))) :
    Handover X policy abs key counter u (⟨t, op, r⟩ :: h) := by
  have keyed := hi.not_unkeyed (t := t) same
  have brief : Brief (journal (History.own (⟨t, op, r⟩ :: h) t)) := by
    rw [History.own_cons_self]
    exact ((logged.resolve_left keyed).cons keyed allowed r).brief
  cases op with
  | backend o =>
    cases o with
    | generation n =>
      cases hm
      exact hi.frame (hi.toLookups.generation tracks (holdings_cons_still rfl) ha) (by rw [ha.2])
        (by simp) brief (by simp)
    | get k =>
      obtain ⟨g, key', keyed, rfl⟩ := allowed
      obtain rfl := hi.key_eq same keyed
      cases hm
      exact hi.frame (hi.toLookups.get tracks (holdings_cons_still rfl) ha) (by rw [ha.2])
        (by simp) brief (by simp)
    | put k v ttl =>
      obtain ⟨g, key', p, now, keyed, rfl, read, encoded, f, hs⟩ := allowed
      obtain rfl := hi.key_eq same keyed
      cases hm
      exact hi.put codec (held.trans hs) read encoded tracks brief ha
    | bumpGeneration n => exact allowed.elim
  | databaseWrite => exact allowed.elim
  | nowMs =>
    cases hm
    exact hi.frame (hi.toLookups.nowMs tracks (holdings_cons_still rfl) ha) rfl (by simp) brief
      (by simp)
  | databaseRead =>
    cases hm
    refine hi.other tracks rfl (by simp) (by simp) (by simp) (fun a he => ?_) brief
    cases he
    exact ha
  | record m =>
    refine hi.other tracks (backend_of_perform (by simp) hm) (by simp) (by simp) ?_ (by simp) brief
    intro load f locked
    obtain rfl := Op.record.inj load
    rcases allowed with outside | ⟨g, key', f', keyed, -, missed⟩
    · rw [holdings, held, outside] at locked
      cases locked
    · obtain rfl := hi.key_eq same keyed
      exact hi.missed locked missed
  | loaderStart | loaderFinish | unlock _ | flightsEntry _ | lock _ | releaseFlight _ _
  | dropFlight _ =>
    exact hi.other tracks (backend_of_perform (by simp) hm) (by simp) (by simp) (by simp) (by simp)
      brief

/-- The drop of a call's locals. -/
theorem Handover.quit (hi : Handover X policy abs key counter w h) {ch : Choice B P}
    (quits : (heldBy (h.own t)).Quits op) (hm : (machine B P T).perform t op ch w = some (r, u))
    (tracks : Tracks u (holdings (⟨t, op, r⟩ :: h))) :
    Handover X policy abs key counter u (⟨t, op, r⟩ :: h) := by
  cases op with
  | unlock _ | dropFlight _ =>
    refine hi.other tracks (backend_of_perform (by simp) hm) (by simp) (by simp) (by simp) (by simp) ?_
    rw [History.own_cons_self]
    exact hi.brief t
  | _ => exact quits.elim

/-- Every step of a call for the key that may be dropped, in a lossless run. -/
theorem Handover.step (hi : Handover X policy abs key counter w h)
    (same : SameKey X key counter request) (codec : X.RoundTrips) {ch : Choice B P}
    (hr : handoverRule X policy request (h.own t) op) (ha : Lossless X policy abs t op ch w h)
    (hm : (machine B P T).perform t op ch w = some (r, u))
    (tracks : Tracks u (holdings (⟨t, op, r⟩ :: h))) :
    Handover X policy abs key counter u (⟨t, op, r⟩ :: h) := by
  rcases hr with ⟨held, logged, allowed⟩ | quits
  · exact hi.stepped same codec held logged allowed ha hm tracks
  · exact hi.quit quits hm tracks

/-! ### How the runs end -/

theorem Brief.read_unique {done : Done P} (brief : Brief (journal done)) {a b : (Op.databaseRead).Res P}
    (ha : ⟨.databaseRead, a⟩ ∈ done) (hb : ⟨.databaseRead, b⟩ ∈ done) : a = b := by
  rw [← mem_journal rfl] at ha hb
  generalize journal done = events at brief ha hb
  cases brief with
  | nothing => cases ha
  | started => simp at ha
  | loaded c =>
    simp only [List.mem_cons, Sigma.mk.injEq, heq_eq_eq, true_and, reduceCtorEq, false_and,
      List.not_mem_nil, or_false] at ha hb
    exact ha.trans hb.symm
  | stored r c =>
    simp only [List.mem_cons, Sigma.mk.injEq, heq_eq_eq, true_and, reduceCtorEq, false_and,
      List.not_mem_nil, or_false, false_or] at ha hb
    exact ha.trans hb.symm

theorem Brief.once {done : Done P} (brief : Brief (journal done)) : loaderRuns done ≤ 1 := by
  rw [loaderRuns_eq]
  generalize journal done = events at brief
  cases brief with
  | nothing => exact Nat.zero_le 1
  | started | loaded _ | stored _ _ => exact Nat.le_refl 1

theorem Handover.storable (hi : Handover X policy abs key counter w h)
    (encodes : ∀ p now, X.len p ≤ policy.maxValueSize → ∃ bytes,
      (CacheEnvelope.new key p policy.ttl now).encode X = .ok bytes) :
    ¬ NotStored X policy key (h.own t) :=
  stored_of_read encodes fun q hq => hi.reads t q (History.mem_own.mp hq)

/-- A call that has returned has stored what it has loaded. -/
theorem Handover.settled (hi : Handover X policy abs key counter w h)
    (same : SameKey X key counter request)
    (encodes : ∀ p now, X.len p ≤ policy.maxValueSize → ∃ bytes,
      (CacheEnvelope.new key p policy.ttl now).encode X = .ok bytes)
    {reply : Reply P} (ends : HandoverEnd X policy request (some reply) (h.own t)) :
    journal (h.own t) = [] ∨ Stores (h.own t) := by
  obtain ⟨held, logged, -⟩ := ends.replied reply rfl
  have logged := logged.resolve_left (hi.not_unkeyed same)
  rcases ends.clear with clear | clear
  · rw [← held, clear] at logged
    exact .inl logged
  · rw [← held, clear] at logged
    rcases logged.2 with nothing | stored | ⟨g, key', keyed, away⟩
    · exact .inl nothing
    · exact .inr stored
    · obtain rfl := hi.key_eq same keyed
      exact absurd away (hi.storable encodes)

/-- A call that has returned has returned what the cache holds. -/
theorem Handover.returned (hi : Handover X policy abs key counter w h)
    (same : SameKey X key counter request)
    (encodes : ∀ p now, X.len p ≤ policy.maxValueSize → ∃ bytes,
      (CacheEnvelope.new key p policy.ttl now).encode X = .ok bytes)
    {reply : Reply P} (ends : HandoverEnd X policy request (some reply) (h.own t)) :
    ∃ bytes p now loader, (abs w.backend).content key.digest = some bytes ∧
      CacheEnvelope.decode X bytes = .ok (CacheEnvelope.new key p policy.ttl now) ∧
      ⟨loader, .databaseRead, .ok p⟩ ∈ h ∧ reply = .payload (.ok p) := by
  have settled := hi.settled same encodes ends
  obtain ⟨-, -, result, rfl, call⟩ := ends.replied _ rfl
  have loaded {a : (Op.databaseRead).Res P} (read : ⟨.databaseRead, a⟩ ∈ h.own t) :
      Stores (h.own t) := by
    refine settled.resolve_left fun nothing => ?_
    rw [← mem_journal rfl, nothing] at read
    cases read
  cases result with
  | error e =>
    rcases call.error e rfl with read | ⟨g, key', keyed, away⟩
    · obtain ⟨p, hp, -⟩ := hi.reads t _ (History.mem_own.mp read)
      cases hp
    · obtain rfl := hi.key_eq same keyed
      exact absurd away (hi.storable encodes)
  | ok p =>
    rcases call.ok p rfl with read | ⟨g, key', keyed, bytes, envelope, got, decoded, payload⟩
    -- what it has read itself it has stored, and nobody else has stored
    · cases content : (abs w.backend).content key.digest with
      | none =>
        have stored := hi.stored
        rw [content] at stored
        cases stored with
        | empty nobody => exact absurd (loaded read) (nobody t)
      | some bytes =>
        obtain ⟨loader, q, now, decoded, read', only⟩ := hi.stored.decoded content
        obtain rfl := only t (loaded read)
        cases (hi.brief t).read_unique read (History.mem_own.mpr read')
        exact ⟨bytes, p, now, t, rfl, decoded, read', rfl⟩
    -- what it has found is there still
    · obtain rfl := hi.key_eq same keyed
      obtain ⟨found, hf, content⟩ := hi.served t _ (History.mem_own.mp got)
      have content := content bytes (Except.ok.inj hf).symm
      obtain ⟨loader, q, now, decoded', read, -⟩ := hi.stored.decoded content
      rw [decoded] at decoded'
      cases decoded'
      cases payload
      exact ⟨bytes, _, now, loader, content, decoded, read, rfl⟩

def isDropped (c : Config T Op (Op.Res P) (World B T) (Option (Reply P))) (t : T) : Bool :=
  match c.tasks t with
  | .ret none => true
  | .ret (some _) | .call _ _ => false

/-- All calls have ended. There were no more loads than calls that were dropped, and one more; the calls
that were not dropped have all returned the same payload, which a loader has read. -/
structure HandedOver [Fintype T] (d : Config T Op (Op.Res P) (World B T) (Option (Reply P))) :
    Prop where
  finished : d.Finished
  loads : loads d.history ≤ (Finset.univ.filter fun t => isDropped d t = true).card + 1
  replies : ∀ t reply, d.tasks t = .ret (some reply) → ∃ p loader, reply = .payload (.ok p) ∧
    ⟨loader, .databaseRead, .ok p⟩ ∈ d.history ∧
    ∀ s other, d.tasks s = .ret (some other) → other = reply

private theorem loads_eq_sum [Fintype T] (h : History P T) : loads h = ∑ t, loaderRuns (h.own t) := by
  refine Eq.trans ?_ (History.countP_eq_sum_own (fun e => e.1.isLoaderStart) h)
  apply List.countP_congr
  rintro ⟨t, op, r⟩ -
  cases op <;> simp [Op.isLoaderStart]

variable {requests : T → CacheRequest} {patience : T → Nat} {state : B.State}

/-- Who has loaded: a call that was dropped, or the one that has stored. -/
theorem Handover.loads_le [Fintype T] {d : Config T Op (Op.Res P) (World B T) (Option (Reply P))}
    (hi : Handover X policy abs key counter d.world d.history)
    (same : ∀ t, SameKey X key counter (requests t))
    (encodes : ∀ p now, X.len p ≤ policy.maxValueSize → ∃ bytes,
      (CacheEnvelope.new key p policy.ttl now).encode X = .ok bytes)
    (ends : ∀ t reply, d.tasks t = .ret reply →
      HandoverEnd X policy (requests t) reply (d.history.own t))
    (finished : d.Finished) :
    loads d.history ≤ (Finset.univ.filter fun t => isDropped d t = true).card + 1 := by
  have idle (t : T) (kept : isDropped d t = false) :
      loaderRuns (d.history.own t) = 0 ∨ Stores (d.history.own t) := by
    obtain ⟨reply, hp⟩ := finished t
    cases reply with
    | none => simp [isDropped, hp] at kept
    | some reply =>
      refine (hi.settled (same t) encodes (ends t _ hp)).imp_left fun nothing => ?_
      rw [loaderRuns_eq, nothing]
      rfl
  obtain ⟨one, total, storing⟩ := hi.stored.one
  -- a dropped call pays for its own load, the one that has stored for the last
  have each (t : T) :
      loaderRuns (d.history.own t) ≤ (if isDropped d t = true then 1 else 0) + one t := by
    have once := (hi.brief t).once
    cases dropped : isDropped d t with
    | true => simp only [if_true]; omega
    | false =>
      rcases idle t dropped with nothing | stores
      · omega
      · rw [storing t stores]
        omega
  calc loads d.history = ∑ t, loaderRuns (d.history.own t) := loads_eq_sum _
    _ ≤ ∑ t, ((if isDropped d t = true then 1 else 0) + one t) := Finset.sum_le_sum fun t _ => each t
    _ = (Finset.univ.filter fun t => isDropped d t = true).card + ∑ t, one t := by
      rw [Finset.sum_add_distrib, Finset.card_filter]
    _ ≤ _ := by omega

private theorem handover_moves {done : Done P} (allowed : handoverRule X policy request done op) :
    (heldBy done).Admits op ∨ (heldBy done).Quits op := by
  rcases allowed with ⟨same, -, allowed⟩ | quits
  · rw [same]
    exact .inl (Task.admits (show (Task.getOrLoad request).rule X policy done op from allowed))
  · exact .inr quits

private theorem handover_preserved (codec : X.RoundTrips)
    (start : ColdStart X policy abs key requests state) :
    Preserves (machine B P T) (Lossless X policy abs)
      (fun t => handoverRule X policy (requests t))
      (Handover X policy abs key (abs state).counter) := by
  intro t op ch w h r u hi allowed lossless performed
  refine hi.step (start.same t) codec allowed lossless performed ?_
  rw [holdings_cons]
  exact hi.tracks.after (handover_moves allowed) performed

private theorem handover_initial (start : ColdStart X policy abs key requests state) :
    Handover X policy abs key (abs state).counter (World.new state : World B T) [] where
  tracks := tracks_new state
  counters := rfl
  generations t n r hm := by cases hm
  served t r hm := by cases hm
  clock := History.always_nil
  absent t f hs := by cases hs
  missing t f p hs := by cases hs
  reads t a hm := by cases hm
  brief t := .nothing
  stored := by
    rw [show (abs (World.new state : World B T).backend).content key.digest = none from start.cold]
    refine .empty fun t ht => ?_
    obtain ⟨k, b, ttl, r, hm⟩ := ht
    cases hm

/-- Calls for one key on a cache that does not hold it, dropped wherever it may be, when nothing is
lost: every run comes to its end; there are at most as many loads as dropped calls and one more, and
the calls that are not dropped all return the same payload. -/
theorem dropped_loads_handed_over [Fintype T] (codec : X.RoundTrips)
    (start : ColdStart X policy abs key requests state) (patience : T → Nat) :
    Inevitable (machine B P T) (Lossless X policy abs) HandedOver
      (dropping X policy (fun t => .getOrLoad (requests t)) patience state) := by
  refine inevitable_of_bounded
    (fun c => Handover X policy abs key (abs state).counter c.world c.history ∧
      c.Obeys (fun t => handoverRule X policy (requests t)) fun t => HandoverEnd X policy (requests t))
    (fun _ => 18 + 3) ?_ ?_ ?_ ⟨handover_initial start, fun t => obeys_handover (patience t)⟩
    fun t => (bounded_program _).droppable bounded_dropLocals
  · rintro c d ⟨hi, obeys⟩ step
    exact ⟨step.preserves (handover_preserved codec start) obeys hi, step.obeys obeys⟩
  · rintro c ⟨hi, obeys⟩ unfinished
    exact enabled_of_dropping hi.tracks (fun t op next hp => handover_moves (obeys.allowed hp))
      (fun t reply hp => (obeys.returned hp).clear) unfinished
  · rintro c ⟨hi, obeys⟩ finished
    refine ⟨finished, hi.loads_le start.same start.encodes (fun t reply hp => obeys.returned hp)
      finished, fun t reply hp => ?_⟩
    obtain ⟨bytes, p, now, loader, content, decoded, read, rfl⟩ :=
      hi.returned (start.same t) start.encodes (obeys.returned hp)
    refine ⟨p, loader, rfl, read, fun s other hs => ?_⟩
    obtain ⟨bytes', p', now', loader', content', decoded', -, rfl⟩ :=
      hi.returned (start.same s) start.encodes (obeys.returned hs)
    obtain rfl := Option.some.inj (content.symm.trans content')
    have same := Except.ok.inj (decoded.symm.trans decoded')
    rw [show p = p' from congrArg CacheEnvelope.payload same]

end

theorem Sample.cold_start : ∃ key, ColdStart (B := LocalBackend.backend Sample.hash) Sample.externals {}
    LocalBackend.abs key (fun _ : Bool => ⟨Sample.keyInput, false⟩) (LocalBackend.withConfig {}) := by
  have parsed : ∃ metadata, SqlMetadata.parse Sample.externals.parser "SELECT 1" = .ok metadata ∧
      metadata.kind = .select := ⟨_, rfl, by decide⟩
  obtain ⟨metadata, hm, kind⟩ := parsed
  have built : ∃ key, CacheKey.build Sample.externals Sample.keyInput 0 = .ok key :=
    CacheKey.build_of_parse hm 0
  obtain ⟨key, hb⟩ := built
  exact ⟨key, fun _ => ⟨⟨metadata, hm, rfl, kind⟩, hb⟩, rfl,
    fun p now _ => Sample.encodes rfl hb p _ now⟩

/-- A call that is dropped between its load and its put, and another one. -/
theorem dropped_load_handed_over : Inevitable (machine (LocalBackend.backend Sample.hash) Bytes Bool)
    (Lossless Sample.externals {} LocalBackend.abs) HandedOver
    (dropping Sample.externals {} (fun _ => .getOrLoad ⟨Sample.keyInput, false⟩)
      (fun first => if first then 10 else 36) (LocalBackend.withConfig {})) := by
  obtain ⟨key, start⟩ := Sample.cold_start
  exact dropped_loads_handed_over Sample.externals_roundTrips start _

end RbatisCache.CacheInterceptor
