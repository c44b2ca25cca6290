import RbatisCache.Memcached.Server

/-! A server that does what is documented: the counters and, under other keys, what has been set, which it
forgets when it wants to. -/
namespace RbatisCache.Memcached

/-- What the protocol leaves open: what it leaves open for counters, and the errors of an operation on what
is no number and of a `set` that is refused. -/
structure Reaction where
  counter : Choice := {}
  notNumeric : String := ""
  refused : Option String := none

namespace Items

/-- The counters alone. -/
def counters (s : Items) : World := fun key =>
  match s key with
  | some (.number n) => some n
  | _ => none

/-- What the server does on a message. -/
def exec (re : Reaction) : (m : Message) → Items → m.Res × Items
  | .counter op, s =>
    match s op.key with
    | some (.bytes _) => ((Message.counter op).failure re.notNumeric, s)
    | _ =>
      let served := serve op re.counter s.counters
      (served.1, Function.update s op.key ((served.2 op.key).map .number))
  | .set command, s =>
    match re.refused with
    | some e => (.error e, s)
    | none => (.ok (), Function.update s command.key (some (.bytes command.payload)))
  | .get key, s => (.ok ((s key).map Item.payload), s)

/-- What has been set expires, or makes room for something else. -/
def lose (s : Items) (key : String) : Items :=
  match s key with
  | some (.bytes _) => Function.update s key none
  | _ => s

def server : Server where
  State := Items
  Reaction := Reaction
  Incident := String
  exec := exec
  befall key s := s.lose key

def view (s : server.State) (key : String) : Option Item := s key

variable {s : Items} {re : Reaction} {k key : String} {n v amount : UInt64} {op : Op} {item : Item}

private theorem counters_of_number (found : s key = some (.number n)) : s.counters key = some n := by
  rw [counters, found]

private theorem counters_of_none (absent : s key = none) : s.counters key = none := by
  rw [counters, absent]

private theorem exec_counter (number : ∀ payload, s op.key ≠ some (.bytes payload)) :
    s.exec re (.counter op) = ((serve op re.counter s.counters).1,
      Function.update s op.key (((serve op re.counter s.counters).2 op.key).map .number)) := by
  rw [exec]
  split
  · next payload found => exact absurd found (number payload)
  · rfl

private theorem exec_bytes {payload : Bytes} (found : s op.key = some (.bytes payload)) :
    s.exec re (.counter op) = ((Message.counter op).failure re.notNumeric, s) := by
  rw [exec, found]

private theorem exec_ne {m : Message} (other : k ≠ m.key) : (s.exec re m).2 k = s k := by
  cases m with
  | counter op =>
    rw [exec]
    split
    · rfl
    · exact Function.update_of_ne other _ _
  | set command =>
    rw [exec]
    split
    · rfl
    · exact Function.update_of_ne other _ _
  | get key => rfl

private theorem exec_add_absent (absent : s key = none) :
    (s.exec re (.counter (.add key v))).2 key = some (.number v) := by
  rw [exec_counter fun payload => by rw [Op.key, absent]; nofun, serve_add_absent (counters_of_none absent)]
  exact (Function.update_self _ _ _).trans (congrArg _ (Function.update_self _ _ _))

private theorem exec_add_present (found : s key = some item) :
    (s.exec re (.counter (.add key v))).2 key = s key := by
  cases item with
  | bytes payload => rw [exec_bytes found]
  | number n =>
    rw [exec_counter fun payload => by rw [Op.key, found]; nofun,
      serve_add_present (counters_of_number found)]
    dsimp only
    rw [Op.key, Function.update_self, counters_of_number found, found]
    rfl

private theorem exec_increment (found : s key = some (.number n)) :
    (s.exec re (.counter (.increment key amount))).1 = .ok (n + amount) ∧
      (s.exec re (.counter (.increment key amount))).2 key = some (.number (n + amount)) := by
  rw [exec_counter fun payload => by rw [Op.key, found]; nofun,
    serve_increment (counters_of_number found)]
  exact ⟨rfl, (Function.update_self _ _ _).trans (congrArg _ (Function.update_self _ _ _))⟩

private theorem exec_get (re : Reaction) (number : ∀ payload, s key ≠ some (.bytes payload)) :
    (s.exec re (.counter (.get key))).1 = .ok (s.counters key) ∧
      (s.exec re (.counter (.get key))).2 key = s key := by
  rw [exec_counter number]
  refine ⟨rfl, (Function.update_self _ _ _).trans ?_⟩
  change (s.counters key).map Item.number = s key
  cases found : s key with
  | none => rw [counters_of_none found]; rfl
  | some item =>
    cases item with
    | bytes payload => exact absurd found (number payload)
    | number n => rw [counters_of_number found]; rfl

private theorem exec_set_refused {command : SetCommand} {e : String} (refused : re.refused = some e) :
    s.exec re (.set command) = (.error e, s) := by
  rw [exec, refused]

private theorem exec_set {command : SetCommand} (accepted : re.refused = none) :
    s.exec re (.set command) =
      (.ok (), Function.update s command.key (some (.bytes command.payload))) := by
  rw [exec, accepted]

private theorem lasts_lose (s : Items) (key k : String) : Lasts (s k) (s.lose key k) := by
  cases found : s key with
  | none =>
    rw [lose, found]
    exact .inl rfl
  | some item =>
    cases item with
    | number n =>
      rw [lose, found]
      exact .inl rfl
    | bytes payload =>
      rw [lose, found]
      by_cases same : k = key
      · subst same
        exact .inr ⟨Function.update_self _ _ _, payload, found⟩
      · exact .inl (Function.update_of_ne same _ _)

private theorem reads_counter (s : Items) (re : Reaction) (k : String) :
    Lasts (s k) ((s.exec re (.counter (.get k))).2 k) ∧
      ∀ number, (s.exec re (.counter (.get k))).1 = .ok number →
        (s k = none → number = none) ∧ ∀ n, s k = some (.number n) → number = some n := by
  cases found : s k with
  | none =>
    obtain ⟨reply, kept⟩ := exec_get (s := s) re fun payload (bytes : s k = _) => by
      rw [found] at bytes; cases bytes
    refine ⟨.inl (kept.trans found), fun number replied => ⟨fun _ => ?_, nofun⟩⟩
    rw [counters_of_none found] at reply
    exact (Except.ok.inj (reply.symm.trans replied)).symm
  | some item =>
    cases item with
    | bytes payload =>
      have out : s.exec re (.counter (.get k)) = _ := exec_bytes found
      refine ⟨.inl ((congrArg (fun out => out.2 k) out).trans found), fun number replied => ?_⟩
      have refused : (.error re.notNumeric : Except String (Option UInt64)) = .ok number :=
        (congrArg Prod.fst out).symm.trans replied
      cases refused
    | number n =>
      obtain ⟨reply, kept⟩ := exec_get (s := s) re fun payload (bytes : s k = _) => by
        rw [found] at bytes; cases bytes
      refine ⟨.inl (kept.trans found), fun number replied => ⟨nofun, fun m same => ?_⟩⟩
      rw [counters_of_number found] at reply
      obtain rfl := Item.number.inj (Option.some.inj same)
      exact (Except.ok.inj (reply.symm.trans replied)).symm

theorem documented : server.Documented view where
  elsewhere re m s k other := .inl (exec_ne other)
  befall key s k := lasts_lose s key k
  add_absent re k v s absent := exec_add_absent absent
  add_present re k v s present := by
    obtain ⟨item, found⟩ := Option.ne_none_iff_exists'.mp present
    exact .inl (exec_add_present found)
  increment re k amount s n found := .inl (exec_increment found)
  getNumber re k s := reads_counter s re k
  set re command s := by
    cases refused : re.refused with
    | some e =>
      have out : s.exec re (.set command) = _ := exec_set_refused refused
      exact .inr ⟨e, congrArg Prod.fst out, .inl (congrArg (fun out => out.2 command.key) out)⟩
    | none =>
      have out : s.exec re (.set command) = _ := exec_set refused
      exact .inl ⟨congrArg Prod.fst out,
        .inl ((congrArg (fun out => out.2 command.key) out).trans (Function.update_self _ _ _))⟩
  get re k s := by
    refine ⟨.inl rfl, fun payload replied => ?_⟩
    obtain ⟨item, found, rfl⟩ := Option.map_eq_some_iff.mp (Except.ok.inj replied)
    exact ⟨item, found, rfl⟩

end Items
end RbatisCache.Memcached
