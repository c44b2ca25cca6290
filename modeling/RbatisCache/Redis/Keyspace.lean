import Mathlib.Algebra.Group.Int.Defs
import RbatisCache.Redis.Server
import RbatisCache.Text

/-! A server that does what is documented: a key space with deadlines, of which it loses what has one. -/
namespace RbatisCache.Redis

/-- A string of the server, and when it expires, in milliseconds of the server's clock. -/
structure Slot where
  value : Bytes
  deadline : Option Nat
  deriving DecidableEq

abbrev Keyspace := String → Option Slot

def writeInteger : Int → Bytes
  | .ofNat n => decimal n
  | .negSucc n => 45 :: decimal (n + 1)

/-- The server takes a string for an integer only as it writes integers itself. -/
def readInteger (value : Bytes) : Option Int :=
  Option.filter (fun n => writeInteger n = value) <|
    match text value with
    | '-' :: digits => (Text.parseDigits (2 ^ 63) digits).map fun n => -Int.ofNat n
    | digits => (Text.parseDigits (2 ^ 63 - 1) digits).map Int.ofNat

namespace Keyspace

/-- What the server finds at some time. -/
def live (s : Keyspace) (now : Nat) (key : String) : Option Slot :=
  (s key).filter fun slot => slot.deadline.all fun deadline => decide (now ≤ deadline)

def set (s : Keyspace) (key : String) (slot : Slot) : Keyspace := Function.update s key (some slot)

/-- What the server does on a command, and the reply as the client reads it. -/
def exec (now : Nat) : (command : Command) → Keyspace → Except String command.Reply × Keyspace
  | .get key, s => (.ok ((s.live now key).map Slot.value), s)
  | .psetex key millis value, s =>
    if now + millis.toNat < 2 ^ 63 then
      (.ok (), s.set key ⟨value, some (now + millis.toNat)⟩)
    else (.error "ERR invalid expire time in 'psetex' command", s)
  | .getNumber key, s =>
    match s.live now key with
    | none => (.ok none, s)
    | some slot =>
      match Text.parseUnsigned (2 ^ 64 - 1) (text slot.value) with
      | none => (.error "Could not convert from string.", s)
      | some n => (.ok (some (.ofNat n)), s)
  | .incr key, s =>
    match s.live now key with
    | none => (.ok 1, s.set key ⟨decimal 1, none⟩)
    | some slot =>
      match readInteger slot.value with
      | none => (.error "ERR value is not an integer or out of range", s)
      | some n =>
        if n = 2 ^ 63 - 1 then (.error "ERR increment or decrement would overflow", s)
        else (if 0 ≤ n + 1 then .ok (.ofNat (n + 1).toNat) else .error "Response type not convertible",
          s.set key ⟨writeInteger (n + 1), slot.deadline⟩)

/-- A key is lost to its deadline or to the eviction of keys that have one. -/
def lose (s : Keyspace) (key : String) : Keyspace :=
  if (s key).any fun slot => slot.deadline.isSome then Function.update s key none else s

end Keyspace

/-! ### Numbers -/

private theorem parseDigits_decimal {n max : Nat} (fits : n ≤ max) :
    Text.parseDigits max (Nat.toDigits 10 n) = some n := by
  have digits : ∀ c ∈ Nat.toDigits 10 n, c.isDigit = true := fun c hc =>
    Nat.isDigit_of_mem_toDigits (by decide) (Nat.le_refl 10) hc
  rw [Text.parseDigits, Nat.ofDigitChars_ten_toDigits]
  exact if_pos ⟨Nat.toDigits_ne_nil, List.all_eq_true.mpr digits, fits⟩

private theorem readInteger_decimal {n : Nat} (small : n < 2 ^ 63) :
    readInteger (decimal n) = some (n : Int) := by
  have fits : n ≤ 2 ^ 63 - 1 := by omega
  have unsigned (rest : List Char) : Nat.toDigits 10 n ≠ '-' :: rest := by
    intro same
    have digit := Nat.isDigit_of_mem_toDigits (b := 10) (n := n) (c := '-') (by decide)
      (Nat.le_refl 10) (by rw [same]; exact List.mem_cons_self)
    exact absurd digit (by decide)
  unfold readInteger
  rw [text_decimal]
  split
  · next digits same => exact absurd same (unsigned digits)
  · rw [parseDigits_decimal fits, Option.map_some, Option.filter_some]
    exact if_pos (decide_eq_true (p := writeInteger (Int.ofNat n) = decimal n) rfl)

/-! ### What it does -/

namespace Keyspace
variable {s t : Keyspace} {now : Nat} {command : Command} {k key : String} {slot : Slot}

private theorem live_of_none (absent : s k = none) : s.live now k = none := by
  rw [live, absent]
  rfl

private theorem live_of_permanent {value : Bytes} (permanent : s k = some ⟨value, none⟩) :
    s.live now k = some ⟨value, none⟩ := by
  rw [live, permanent]
  rfl

private theorem of_live (found : s.live now k = some slot) : s k = some slot :=
  (Option.filter_eq_some_iff.mp found).1

private theorem set_self : s.set k slot k = some slot := Function.update_self _ _ _

private theorem set_ne {l : String} (other : l ≠ k) :
    s.set k slot l = s l := Function.update_of_ne other _ _

/-- What a command writes at its key, if it writes. -/
def wrote (s : Keyspace) (key : String) : Option Slot → Keyspace
  | none => s
  | some slot => s.set key slot

private theorem wrote_ne (other : k ≠ key) (write : Option Slot) : s.wrote key write k = s k := by
  cases write with
  | none => rfl
  | some slot => exact set_ne other

private theorem wrote_congr (same : s k = t k) (write : Option Slot) :
    s.wrote key write k = t.wrote key write k := by
  cases write with
  | none => exact same
  | some slot =>
    by_cases here : k = key
    · subst here
      exact set_self.trans set_self.symm
    · exact (set_ne here).trans (same.trans (set_ne here).symm)

private theorem live_congr (same : s k = t k) : s.live now k = t.live now k := by
  rw [live, live, same]

/-- A command sees the string at its key, and writes there or not at all. -/
theorem exec_alike (now : Nat) (same : s command.key = t command.key) : ∃ reply write,
    s.exec now command = (reply, s.wrote command.key write) ∧
    t.exec now command = (reply, t.wrote command.key write) := by
  cases command with
  | get key =>
    have live : s.live now key = t.live now key := live_congr same
    refine ⟨_, none, ?_, rfl⟩
    rw [exec, live]
    rfl
  | psetex key millis value =>
    rw [exec, exec]
    split
    · exact ⟨_, some _, rfl, rfl⟩
    · exact ⟨_, none, rfl, rfl⟩
  | getNumber key =>
    have live : s.live now key = t.live now key := live_congr same
    rw [exec, exec, live]
    cases t.live now key with
    | none => exact ⟨_, none, rfl, rfl⟩
    | some slot =>
      dsimp only
      cases Text.parseUnsigned (2 ^ 64 - 1) (text slot.value) with
      | none => exact ⟨_, none, rfl, rfl⟩
      | some n => exact ⟨_, none, rfl, rfl⟩
  | incr key =>
    have live : s.live now key = t.live now key := live_congr same
    rw [exec, exec, live]
    cases t.live now key with
    | none => exact ⟨_, some _, rfl, rfl⟩
    | some slot =>
      dsimp only
      cases readInteger slot.value with
      | none => exact ⟨_, none, rfl, rfl⟩
      | some n =>
        dsimp only
        split
        · exact ⟨_, none, rfl, rfl⟩
        · exact ⟨_, some _, rfl, rfl⟩

private theorem exec_ne (other : k ≠ command.key) : (s.exec now command).2 k = s k := by
  have same : s command.key = s command.key := rfl
  obtain ⟨reply, write, done, -⟩ := exec_alike now same
  rw [done]
  exact wrote_ne other write

private theorem lose_ne (other : k ≠ key) : s.lose key k = s k := by
  unfold Keyspace.lose
  split
  · exact Function.update_of_ne other _ _
  · rfl

private theorem lose_congr (same : s k = t k) : s.lose key k = t.lose key k := by
  by_cases here : k = key
  · subst here
    unfold Keyspace.lose
    rw [same]
    split
    · rw [Function.update_self, Function.update_self]
    · exact same
  · exact (lose_ne here).trans (same.trans (lose_ne here).symm)

/-! ### What is documented -/

def view (s : Keyspace) (k : String) : Option Item :=
  (s k).map fun slot => ⟨slot.value, slot.deadline.isSome⟩

def server : Server where
  State := Keyspace
  Moment := Nat
  Incident := String
  exec := exec
  befall key s := s.lose key

private theorem view_congr (same : s k = t k) : s.view k = t.view k := by
  rw [view, view, same]

private theorem of_view_none (absent : s.view k = none) : s k = none := Option.map_eq_none_iff.mp absent

private theorem of_view_count {n : Nat} (present : s.view k = some (.count n)) :
    s k = some ⟨decimal n, none⟩ := by
  obtain ⟨⟨value, deadline⟩, found, same⟩ := Option.map_eq_some_iff.mp present
  obtain ⟨rfl, permanent⟩ := Item.mk.inj same
  cases deadline with
  | none => exact found
  | some deadline => cases permanent

private theorem view_of_some (found : s k = some slot) :
    s.view k = some ⟨slot.value, slot.deadline.isSome⟩ := by
  rw [view, found]
  rfl

private theorem lasts_lose (s : Keyspace) (key k : String) :
    Lasts (s.view k) ((s.lose key).view k) := by
  by_cases here : k = key
  · subst here
    unfold Keyspace.lose
    split
    · next volatile =>
      obtain ⟨slot, found, expires⟩ := (Option.any_eq_true _ _).mp volatile
      refine .inr ⟨?_, _, view_of_some found, expires⟩
      rw [view, Function.update_self]
      rfl
    · exact .inl rfl
  · exact .inl (view_congr (lose_ne here))

private theorem exec_psetex (s : Keyspace) (now : Nat) (k : String) (millis : UInt64) (v : Bytes) :
    (∃ deadline, s.exec now (.psetex k millis v) = (.ok (), s.set k ⟨v, some deadline⟩)) ∨
      ∃ message, s.exec now (.psetex k millis v) = (.error message, s) := by
  rw [exec]
  split
  · exact .inl ⟨_, rfl⟩
  · exact .inr ⟨_, rfl⟩

private theorem exec_getNumber_of_none (absent : s k = none) :
    (s.exec now (.getNumber k)).1 = .ok none := by
  rw [exec, live_of_none absent]

private theorem exec_getNumber (s : Keyspace) (now : Nat) (k : String) :
    (s.exec now (.getNumber k)).2 = s := by
  rw [exec]
  split
  · rfl
  · split <;> rfl

private theorem exec_getNumber_count {m : Nat} (small : m < 2 ^ 63)
    (present : s k = some ⟨decimal m, none⟩) :
    (s.exec now (.getNumber k)).1 = .ok (some (.ofNat m)) := by
  have fits : m ≤ 2 ^ 64 - 1 := by omega
  rw [exec, live_of_permanent present]
  dsimp only
  rw [text_decimal, Text.parseUnsigned_toDigits fits]

private theorem exec_incr_of_none (absent : s k = none) :
    s.exec now (.incr k) = (.ok 1, s.set k ⟨decimal 1, none⟩) := by
  rw [exec, live_of_none absent]

private theorem exec_incr {m : Nat} (small : m + 1 < 2 ^ 63) (present : s k = some ⟨decimal m, none⟩) :
    s.exec now (.incr k) = (.ok (.ofNat (m + 1)), s.set k ⟨decimal (m + 1), none⟩) := by
  have below : (m : Int) ≠ 2 ^ 63 - 1 := by omega
  have positive : (0 : Int) ≤ m + 1 := by omega
  have room : m < 2 ^ 63 := by omega
  rw [exec, live_of_permanent present]
  dsimp only
  rw [readInteger_decimal room]
  dsimp only
  rw [if_neg below, if_pos positive]
  rfl

private theorem exec_incr_overflow {m : Nat} (full : m + 1 = 2 ^ 63)
    (present : s k = some ⟨decimal m, none⟩) :
    ∃ message, s.exec now (.incr k) = (.error message, s) := by
  have last : (m : Int) = 2 ^ 63 - 1 := by omega
  have room : m < 2 ^ 63 := by omega
  refine ⟨"ERR increment or decrement would overflow", ?_⟩
  rw [exec, live_of_permanent present]
  dsimp only
  rw [readInteger_decimal room]
  dsimp only
  rw [if_pos last]

private theorem view_set (s : Keyspace) (k : String) (slot : Slot) :
    (s.set k slot).view k = some ⟨slot.value, slot.deadline.isSome⟩ :=
  view_of_some set_self

theorem documented : server.Documented view where
  elsewhere now command s k other := .inl (view_congr (exec_ne other))
  befall key s k := lasts_lose s key k
  get now k s := by
    refine ⟨.inl rfl, fun value reply => ?_⟩
    obtain ⟨slot, found, rfl⟩ := Option.map_eq_some_iff.mp (Except.ok.inj reply)
    exact ⟨_, view_of_some (of_live found), rfl⟩
  psetex now k millis value s := by
    rcases exec_psetex s now k millis value with ⟨deadline, run⟩ | ⟨message, run⟩
    · have stored : (s.set k ⟨value, some deadline⟩).view k = some ⟨value, true⟩ := view_set s k _
      exact .inl ⟨congrArg Prod.fst run,
        .inl ((congrArg (fun out => view out.2 k) run).trans stored)⟩
    · exact .inr ⟨message, congrArg Prod.fst run, .inl (congrArg (fun out => view out.2 k) run)⟩
  getNumber now k s := by
    have same : (s.exec now (.getNumber k)).2 = s := exec_getNumber s now k
    refine ⟨.inl (view_congr (congrFun same k)), fun number reply => ⟨fun absent => ?_, ?_⟩⟩
    · exact (Except.ok.inj ((exec_getNumber_of_none (of_view_none absent)).symm.trans reply)).symm
    · intro n small present
      exact (Except.ok.inj ((exec_getNumber_count small (of_view_count present)).symm.trans reply)).symm
  incr now k s n small before := by
    have raised (room : n + 1 < 2 ^ 63)
        (run : s.exec now (.incr k) = (.ok (.ofNat (n + 1)), s.set k ⟨decimal (n + 1), none⟩)) :
        (s.exec now (.incr k)).1 = .ok (.ofNat (n + 1)) ∧
          view (s.exec now (.incr k)).2 k = some (.count (n + 1)) := by
      rw [run]
      exact ⟨rfl, view_set s k _⟩
    rcases before with ⟨absent, rfl⟩ | present
    · exact .inl ⟨by decide, raised (by decide) (exec_incr_of_none (of_view_none absent))⟩
    · rcases Nat.lt_or_eq_of_le small with room | full
      · exact .inl ⟨room, raised room (exec_incr room (of_view_count present))⟩
      · obtain ⟨message, run⟩ := exec_incr_overflow full (of_view_count present)
        exact .inr ⟨message, congrArg Prod.fst run, congrArg (fun out => view out.2 k) run⟩

theorem separates : server.Separates fun s k => s k where
  exec now command s t same := by
    obtain ⟨reply, write, left, right⟩ := exec_alike now same
    change (s.exec now command).1 = (t.exec now command).1 ∧
      (s.exec now command).2 command.key = (t.exec now command).2 command.key
    rw [left, right]
    exact ⟨rfl, wrote_congr same write⟩
  elsewhere now command s k other := exec_ne other
  befall key s t k same := lose_congr same

theorem unused {blake3 : Bytes → String} {config : RedisCacheConfig} :
    Items.Unused blake3 config (view fun _ => none) :=
  ⟨fun _ => rfl, fun _ => rfl⟩

end Keyspace
end RbatisCache.Redis
