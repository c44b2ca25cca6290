import Mathlib.Algebra.GroupWithZero.Nat
import Mathlib.Logic.Relation
import RbatisCache.Spi.Backend

/-! Stores at the other end of a network. A call that fails may still be on its way: what it asked for
happens later, or never. -/
namespace RbatisCache

/-- What an operation does to the ideal store. -/
def Store.apply (s : Store) : BackendOp → Store
  | .put k v _ => s.put k v
  | .bumpGeneration n => s.bump n
  | .get _ | .generation _ => s

theorem Store.fails_of_shrinks {op : BackendOp} {s t : Store} (lost : s.Shrinks t) :
    Store.Fails op s t := by
  cases op with
  | get | generation => exact lost
  | put | bumpGeneration => exact .inl lost

theorem Store.fails_of_apply {op : BackendOp} {s t : Store} (applied : (s.apply op).Shrinks t) :
    Store.Fails op s t := by
  cases op with
  | get | generation => exact applied
  | put | bumpGeneration => exact .inr applied

/-- A store, and the operations on their way to it. -/
structure Remote where
  store : Store
  due : List BackendOp

namespace Remote

/-- What happens without a call: entries are lost, and operations arrive or get lost on the way. -/
inductive Drift : Remote → Remote → Prop
  | loses {s t : Store} {due : List BackendOp} (fewer : s.Shrinks t) : Drift ⟨s, due⟩ ⟨t, due⟩
  | arrives (s : Store) (earlier : List BackendOp) (op : BackendOp) (later : List BackendOp) :
    Drift ⟨s, earlier ++ op :: later⟩ ⟨s.apply op, earlier ++ later⟩
  | dropped (s : Store) (earlier : List BackendOp) (op : BackendOp) (later : List BackendOp) :
    Drift ⟨s, earlier ++ op :: later⟩ ⟨s, earlier ++ later⟩

abbrev Drifts : Remote → Remote → Prop := Relation.ReflTransGen Drift

section
variable {α : Type} {l : List α} {i : Nat} {a : α} {due : List BackendOp} {op : BackendOp}

private theorem eraseIdx_split (found : l[i]? = some a) :
    ∃ earlier later, l = earlier ++ a :: later ∧ l.eraseIdx i = earlier ++ later := by
  obtain ⟨bound, rfl⟩ := List.getElem?_eq_some_iff.mp found
  refine ⟨l.take i, l.drop (i + 1), ?_, List.eraseIdx_eq_take_drop_succ l i⟩
  rw [← List.drop_eq_getElem_cons bound, List.take_append_drop]

theorem drifts_arrived (s : Store) (found : due[i]? = some op) :
    Drifts ⟨s, due⟩ ⟨s.apply op, due.eraseIdx i⟩ := by
  obtain ⟨earlier, later, split, rest⟩ := eraseIdx_split found
  rw [rest, split]
  exact .single (.arrives s earlier op later)

theorem drifts_dropped (s : Store) (due : List BackendOp) (i : Nat) :
    Drifts ⟨s, due⟩ ⟨s, due.eraseIdx i⟩ := by
  cases found : due[i]? with
  | none =>
    rw [List.eraseIdx_of_length_le (List.getElem?_eq_none_iff.mp found)]
  | some op =>
    obtain ⟨earlier, later, split, rest⟩ := eraseIdx_split found
    rw [rest, split]
    exact .single (.dropped s earlier op later)

end

/-- A call succeeds as on the ideal store, or fails: then it has been carried out, or not, or is due. -/
inductive Answers : (op : BackendOp) → op.Res → Remote → Remote → Prop
  | serves {op : BackendOp} {r : op.Res} {s t : Store} {due : List BackendOp}
    (serves : Store.Serves op r s t) : Answers op r ⟨s, due⟩ ⟨t, due⟩
  | fails {op : BackendOp} {r : op.Res} {s t : Store} {due : List BackendOp} (failed : op.Failed r)
    (fails : Store.Fails op s t) : Answers op r ⟨s, due⟩ ⟨t, due⟩
  | delayed {op : BackendOp} {r : op.Res} {s : Store} {due : List BackendOp} (failed : op.Failed r) :
    Answers op r ⟨s, due⟩ ⟨s, op :: due⟩

/-- A call, after what has arrived before it. -/
def Serves (op : BackendOp) (r : op.Res) (s t : Remote) : Prop :=
  ∃ mid, s.Drifts mid ∧ Answers op r mid t

/-- All that is stored or due is as it should be, and a counter has not counted more bumps than `total`,
those included that are due. -/
structure Within (Q : String → Bytes → Prop) (total : String → Nat) (r : Remote) : Prop where
  stored : ∀ k b, r.store.content k = some b → Q k b
  due : ∀ k b ttl, .put k b ttl ∈ r.due → Q k b
  counter : ∀ n, (r.store.counter n).toNat + (r.due.map (Store.bumpCount n)).sum ≤ total n

end Remote

/-- A backend that behaves like the ideal store, but for calls that are late. -/
structure CacheBackend.Lagging (B : CacheBackend) where
  abs : B.State → Remote
  answers : ∀ op ch s, ∃ r, (abs s).Drifts r ∧
    Remote.Answers op (B.perform op ch s).1 r (abs (B.perform op ch s).2)

/-- No call is late. -/
def CacheBackend.Honest.lagging {B : CacheBackend} (H : B.Honest) : B.Lagging where
  abs s := ⟨H.abs s, []⟩
  answers op ch s := by
    refine ⟨_, .refl, ?_⟩
    rcases H.answers op ch s with serves | ⟨failed, fails⟩
    · exact .serves serves
    · exact .fails failed fails

namespace Remote
variable {Q : String → Bytes → Prop} {total : String → Nat} {r s t : Remote} {op : BackendOp}
variable {n : String}

private theorem toNat_counter_apply (s : Store)
    (few : (s.counter n).toNat + Store.bumpCount n op < 2 ^ 64) :
    ((s.apply op).counter n).toNat = (s.counter n).toNat + Store.bumpCount n op := by
  cases op with
  | get | put | generation => rfl
  | bumpGeneration m =>
    by_cases same : m = n
    · subst same
      rw [Store.bumpCount, if_pos rfl] at few ⊢
      rw [Store.apply, Store.bump_counter_self, UInt64.toNat_add]
      exact Nat.mod_eq_of_lt few
    · rw [Store.bumpCount, if_neg same, Nat.add_zero, Store.apply,
        Store.bump_counter_ne _ (Ne.symm same)]

private theorem content_apply {s : Store} {k : String} {b : Bytes}
    (h : (s.apply op).content k = some b) :
    s.content k = some b ∨ ∃ ttl, op = .put k b ttl := by
  cases op with
  | get | generation | bumpGeneration => exact .inl h
  | put l v ttl =>
    rcases Store.content_of_put (Store.Shrinks.refl _) h with old | ⟨rfl, rfl⟩
    · exact .inl old
    · exact .inr ⟨ttl, rfl⟩

private theorem mem_due {earlier later : List BackendOp} {o : BackendOp} (due : o ∈ earlier ++ later) :
    o ∈ earlier ++ op :: later := by
  rcases List.mem_append.mp due with before | after
  · exact List.mem_append_left _ before
  · exact List.mem_append_right _ (List.mem_cons_of_mem _ after)

/-- The counters never go back by themselves. -/
theorem Drift.within (drift : Drift r s) (within : r.Within Q total) (few : ∀ n, total n < 2 ^ 64) :
    s.Within Q total ∧ ∀ n, (r.store.counter n).toNat ≤ (s.store.counter n).toNat := by
  cases drift with
  | @loses s t due fewer =>
    have same (n : String) : t.counter n = s.counter n := congrFun fewer.counter n
    refine ⟨⟨fun k b stored => within.stored k b (fewer.content stored), within.due, fun n => ?_⟩,
      fun n => ?_⟩
    · rw [same]
      exact within.counter n
    · rw [same]
  | arrives s earlier op later =>
    have counter (n : String) := within.counter n
    simp only [List.map_append, List.map_cons, List.sum_append, List.sum_cons] at counter
    have value (n : String) :
        ((s.apply op).counter n).toNat = (s.counter n).toNat + Store.bumpCount n op := by
      refine toNat_counter_apply s ?_
      have := few n
      have := counter n
      omega
    refine ⟨⟨fun k b stored => ?_, fun k b ttl due => within.due k b ttl (mem_due due), fun n => ?_⟩,
      fun n => ?_⟩
    · rcases content_apply stored with old | ⟨ttl, rfl⟩
      · exact within.stored k b old
      · exact within.due k b ttl (List.mem_append_right _ List.mem_cons_self)
    · have := counter n
      simp only [List.map_append, List.sum_append, value n]
      omega
    · rw [value n]
      exact Nat.le_add_right _ _
  | dropped s earlier op later =>
    refine ⟨⟨within.stored, fun k b ttl due => within.due k b ttl (mem_due due), fun n => ?_⟩,
      fun n => le_rfl⟩
    have counter := within.counter n
    simp only [List.map_append, List.map_cons, List.sum_append, List.sum_cons] at counter ⊢
    omega

theorem Drifts.within (drifts : Drifts r s) (within : r.Within Q total)
    (few : ∀ n, total n < 2 ^ 64) :
    s.Within Q total ∧ ∀ n, (r.store.counter n).toNat ≤ (s.store.counter n).toNat := by
  induction drifts with
  | refl => exact ⟨within, fun _ => le_rfl⟩
  | tail _ drift ih =>
    obtain ⟨later, grown⟩ := drift.within ih.1 few
    exact ⟨later, fun n => (ih.2 n).trans (grown n)⟩

/-! ### One call -/

/-- What may be known after a call: what it leaves behind, and what its answer tells about the counters
at that time. -/
structure Called (Q : String → Bytes → Prop) (total : String → Nat) (op : BackendOp) (answer : op.Res)
    (before after : Remote) : Prop where
  within : after.Within Q fun n => total n + Store.bumpCount n op
  grown : ∀ n, (before.store.counter n).toNat ≤ (after.store.counter n).toNat
  got : ∀ k b, (⟨op, answer⟩ : Sigma BackendOp.Res) = ⟨.get k, .ok (some b)⟩ → Q k b
  read : ∀ n g, (⟨op, answer⟩ : Sigma BackendOp.Res) = ⟨.generation n, .ok g⟩ →
    (before.store.counter n).toNat ≤ g.toNat ∧ g.toNat ≤ (after.store.counter n).toNat
  raised : ∀ n m, (⟨op, answer⟩ : Sigma BackendOp.Res) = ⟨.bumpGeneration n, .ok m⟩ →
    (before.store.counter n).toNat < m.toNat ∧ m.toNat ≤ (after.store.counter n).toNat

variable {u v : Store} {due : List BackendOp}

theorem Within.shrinks (within : (⟨u, due⟩ : Remote).Within Q total) (fewer : u.Shrinks v) :
    (⟨v, due⟩ : Remote).Within Q total := by
  refine ⟨fun k b stored => within.stored k b (fewer.content stored), within.due, fun n => ?_⟩
  dsimp only
  rw [fewer.counter]
  exact within.counter n

theorem Within.more (within : r.Within Q total) (op : BackendOp) :
    r.Within Q fun n => total n + Store.bumpCount n op :=
  ⟨within.stored, within.due, fun n => (within.counter n).trans (Nat.le_add_right _ _)⟩

theorem Within.queued (within : (⟨u, due⟩ : Remote).Within Q total)
    (puts : ∀ k b ttl, op = .put k b ttl → Q k b) :
    (⟨u, op :: due⟩ : Remote).Within Q fun n => total n + Store.bumpCount n op := by
  refine ⟨within.stored, fun k b ttl due => ?_, fun n => ?_⟩
  · rcases List.mem_cons.mp due with now | before
    · exact puts k b ttl now.symm
    · exact within.due k b ttl before
  · have counter := within.counter n
    simp only [List.map_cons, List.sum_cons] at counter ⊢
    omega

/-- A counter has room for what is asked for. -/
theorem Within.room (within : (⟨u, due⟩ : Remote).Within Q total)
    (few : ∀ n, total n + Store.bumpCount n op < 2 ^ 64) (n : String) :
    (u.counter n).toNat + Store.bumpCount n op < 2 ^ 64 := by
  have counter := within.counter n
  have := few n
  dsimp only at counter
  omega

theorem Within.applied (within : (⟨u, due⟩ : Remote).Within Q total)
    (puts : ∀ k b ttl, op = .put k b ttl → Q k b)
    (few : ∀ n, total n + Store.bumpCount n op < 2 ^ 64) :
    (⟨u.apply op, due⟩ : Remote).Within Q fun n => total n + Store.bumpCount n op := by
  refine ⟨fun k b stored => ?_, within.due, fun n => ?_⟩
  · rcases content_apply stored with old | ⟨ttl, put⟩
    · exact within.stored k b old
    · exact puts k b ttl put
  · have counter := within.counter n
    dsimp only at counter ⊢
    rw [toNat_counter_apply u (within.room few n)]
    omega

private theorem shrinks_of_serves {answer : op.Res} (serves : Store.Serves op answer u v) :
    (u.apply op).Shrinks v := by
  cases op with
  | get | put | generation | bumpGeneration => exact serves.2

private theorem shrinks_of_fails (fails : Store.Fails op u v) :
    u.Shrinks v ∨ (u.apply op).Shrinks v := by
  cases op with
  | get | generation => exact .inl fails
  | put | bumpGeneration => exact fails

/-- A failed answer tells nothing. -/
theorem Called.of_failed {answer : op.Res} (failed : op.Failed answer)
    (within : s.Within Q fun n => total n + Store.bumpCount n op)
    (grown : ∀ n, (r.store.counter n).toNat ≤ (s.store.counter n).toNat) :
    Called Q total op answer r s := by
  refine ⟨within, grown, fun k b same => ?_, fun n g same => ?_, fun n m same => ?_⟩
  all_goals
    cases same
    obtain ⟨e, ok⟩ := failed
    cases ok

theorem Answers.called {answer : op.Res} (answers : Answers op answer r s)
    (within : r.Within Q total) (puts : ∀ k b ttl, op = .put k b ttl → Q k b)
    (few : ∀ n, total n + Store.bumpCount n op < 2 ^ 64) : Called Q total op answer r s := by
  cases answers with
  | @serves u v due serves =>
    have value (n : String) : (v.counter n).toNat = (u.counter n).toNat + Store.bumpCount n op := by
      rw [(shrinks_of_serves serves).counter]
      exact toNat_counter_apply u (within.room few n)
    refine ⟨(within.applied puts few).shrinks (shrinks_of_serves serves), fun n => ?_,
      fun k b same => ?_, fun n g same => ?_, fun n m same => ?_⟩
    · exact (Nat.le_add_right _ _).trans (value n).ge
    · cases same
      rcases serves.1 with none | found
      · cases none
      · exact within.stored k b (Except.ok.inj found).symm
    · cases same
      obtain rfl := Except.ok.inj serves.1
      exact ⟨le_rfl, (value n).ge⟩
    · cases same
      obtain rfl := Except.ok.inj serves.1
      have room := within.room few n
      have counts := value n
      rw [Store.bumpCount, if_pos rfl] at room counts
      have raised : (saturatingAdd (u.counter n) 1).toNat = (u.counter n).toNat + 1 := by
        have one : (1 : UInt64).toNat = 1 := rfl
        rw [toNat_saturatingAdd, one]
        omega
      dsimp only
      omega
  | @fails u v due failed fails =>
    rcases shrinks_of_fails fails with nothing | done
    · refine .of_failed failed ((within.shrinks nothing).more op) fun n => ?_
      exact (congrArg (fun c => (c n).toNat) nothing.counter).ge
    · refine .of_failed failed ((within.applied puts few).shrinks done) fun n => ?_
      refine le_of_le_of_eq ?_ (congrArg (fun c => (c n).toNat) done.counter).symm
      rw [toNat_counter_apply u (within.room few n)]
      exact Nat.le_add_right _ _
  | delayed failed => exact .of_failed failed (within.queued puts) fun n => le_rfl

end Remote

/-- A call to a backend that is late, after what has arrived before it. -/
theorem CacheBackend.Lagging.called {B : CacheBackend} (L : B.Lagging) {Q : String → Bytes → Prop}
    {total : String → Nat} {s : B.State} (within : (L.abs s).Within Q total) {op : BackendOp}
    (puts : ∀ k b ttl, op = .put k b ttl → Q k b)
    (few : ∀ n, total n + Store.bumpCount n op < 2 ^ 64) (ch : B.Choice) :
    Remote.Called Q total op (B.perform op ch s).1 (L.abs s) (L.abs (B.perform op ch s).2) := by
  obtain ⟨r, drifts, answers⟩ := L.answers op ch s
  obtain ⟨before, grown⟩ := drifts.within within fun n => (Nat.le_add_right _ _).trans_lt (few n)
  have called := answers.called before puts few
  refine ⟨called.within, fun n => (grown n).trans (called.grown n), called.got, fun n g same => ?_,
    fun n m same => ?_⟩
  · obtain ⟨above, below⟩ := called.read n g same
    exact ⟨(grown n).trans above, below⟩
  · obtain ⟨above, below⟩ := called.raised n m same
    exact ⟨(grown n).trans_lt above, below⟩

end RbatisCache
