import RbatisCache.Redis.CircuitBreaker
import RbatisCache.Spi.Lagging

/-! What the backends over Redis talk to: a server of which only its documentation is known, and commands
of which it may hear late or never. -/
namespace RbatisCache.Redis
open RedisCacheBackend

/-- A string of the server, and whether it has a deadline. -/
structure Item where
  value : Bytes
  expires : Bool
  deriving DecidableEq

/-- How the server writes an integer. -/
def decimal (n : Nat) : Bytes := (Nat.toDigits 10 n).map fun c => .ofNat c.toNat

/-- An integer that does not expire. -/
def Item.count (n : Nat) : Item := ⟨decimal n, false⟩

/-- The one key of a command. -/
def Command.key : Command → String
  | .get key | .psetex key _ _ | .getNumber key | .incr key => key

/-- The server: what it does on a command, with the reply as the client reads it, and on what happens
without a command. -/
structure Server where
  State : Type
  Moment : Type
  Incident : Type
  exec : Moment → (command : Command) → State → Except String command.Reply × State
  befall : Incident → State → State

/-- A string stays, or it has a deadline and is gone. -/
def Lasts (before after : Option Item) : Prop :=
  after = before ∨ after = none ∧ ∃ item, before = some item ∧ item.expires = true

/-- What is documented of the server. Whatever it does, a string without a deadline stays until a command
for its key changes it; one with a deadline may expire, or be evicted. -/
structure Server.Documented (S : Server) (view : S.State → String → Option Item) : Prop where
  /-- A command changes the string at its key. -/
  elsewhere : ∀ now command s k, k ≠ command.key → Lasts (view s k) (view (S.exec now command s).2 k)
  befall : ∀ incident s k, Lasts (view s k) (view (S.befall incident s) k)
  get : ∀ now k s, Lasts (view s k) (view (S.exec now (.get k) s).2 k) ∧
    ∀ value, (S.exec now (.get k) s).1 = .ok (some value) →
      ∃ item, view s k = some item ∧ item.value = value
  psetex : ∀ now k millis value s,
    ((S.exec now (.psetex k millis value) s).1 = .ok () ∧
      Lasts (some ⟨value, true⟩) (view (S.exec now (.psetex k millis value) s).2 k)) ∨
    ∃ message, (S.exec now (.psetex k millis value) s).1 = .error message ∧
      Lasts (view s k) (view (S.exec now (.psetex k millis value) s).2 k)
  getNumber : ∀ now k s, Lasts (view s k) (view (S.exec now (.getNumber k) s).2 k) ∧
    ∀ number, (S.exec now (.getNumber k) s).1 = .ok number →
      (view s k = none → number = none) ∧
      ∀ n < 2 ^ 63, view s k = some (.count n) → number = some (.ofNat n)
  /-- An absent integer counts as zero, and signed integers of 64 bits do not overflow. -/
  incr : ∀ now k s n, n < 2 ^ 63 → view s k = none ∧ n = 0 ∨ view s k = some (.count n) →
    (n + 1 < 2 ^ 63 ∧ (S.exec now (.incr k) s).1 = .ok (.ofNat (n + 1)) ∧
      view (S.exec now (.incr k) s).2 k = some (.count (n + 1))) ∨
    ∃ message, (S.exec now (.incr k) s).1 = .error message ∧
      view (S.exec now (.incr k) s).2 k = view s k

/-- What is documented of keys: a command reads and writes at its own, and what is lost at a key depends
on what stands there. -/
structure Server.Separates (S : Server) {α : Type} (strings : S.State → String → α) : Prop where
  exec : ∀ now command s t, strings s command.key = strings t command.key →
    (S.exec now command s).1 = (S.exec now command t).1 ∧
      strings (S.exec now command s).2 command.key = strings (S.exec now command t).2 command.key
  elsewhere : ∀ now command s k, k ≠ command.key → strings (S.exec now command s).2 k = strings s k
  befall : ∀ incident s t k, strings s k = strings t k →
    strings (S.befall incident s) k = strings (S.befall incident t) k

/-- When the server hears of a command whose reply the client does not get. -/
inductive Reach where
  | now | later | never
  deriving DecidableEq

/-- What becomes of a command: without a reply there is an error of the connection or the timeout. -/
inductive Fate where
  | answered
  | broken (failure : Option String) (reach : Reach)
  deriving DecidableEq

/-- What happens without a call. A command on its way arrives at some moment of the server, or never. -/
inductive Happening (S : Server) where
  | befell (incident : S.Incident)
  | arrived (position : Nat) (now : S.Moment)
  | dropped (position : Nat)

/-- The clients of some processes, the server, and the operations whose commands are on their way. -/
structure Network (K : Type) (S : Server) where
  clients : K → RedisCacheBackend
  server : S.State
  due : List BackendOp

/-- What a call does not decide itself. -/
structure NetworkChoice (K : Type) (S : Server) where
  client : K
  before : List (Happening S)
  now : UInt64
  failedAt : UInt64
  serverNow : S.Moment
  fate : Fate

def Fate.outcome {R : Type} : Fate → Except String R → Outcome R
  | .answered, .ok value => .success value
  | .answered, .error message => .error message
  | .broken (some message) _, _ => .error message
  | .broken none _, _ => .timeout

namespace Network
variable {K : Type} [DecidableEq K] {S : Server} (blake3 : Bytes → String) (config : RedisCacheConfig)

/-- The server hears of an operation. -/
def hear (net : Network K S) (now : S.Moment) (op : BackendOp) : Network K S :=
  { net with server := (S.exec now (command blake3 config op) net.server).2 }

def happens (net : Network K S) : Happening S → Network K S
  | .befell incident => { net with server := S.befall incident net.server }
  | .arrived position now =>
    match net.due[position]? with
    | none => net
    | some op => { net.hear blake3 config now op with due := net.due.eraseIdx position }
  | .dropped position => { net with due := net.due.eraseIdx position }

/-- What is sent reaches the server as its fate says. -/
def send (net : Network K S) (now : S.Moment) (op : BackendOp) : Fate → Network K S
  | .answered | .broken _ .now => net.hear blake3 config now op
  | .broken _ .later => { net with due := op :: net.due }
  | .broken _ .never => net

def perform (op : BackendOp) (ch : NetworkChoice K S) (net : Network K S) : op.Res × Network K S :=
  let net := ch.before.foldl (happens blake3 config) net
  let server (command : Command) := ch.fate.outcome (S.exec ch.serverNow command net.server).1
  let done := RedisCacheBackend.perform blake3 op ⟨ch.now, ch.failedAt, server⟩ (net.clients ch.client)
  let net := { net with clients := Function.update net.clients ch.client done.backend }
  (done.result, if done.sent = [] then net else net.send blake3 config ch.serverNow op ch.fate)

end Network

/-! ### Numbers -/

def text (value : Bytes) : List Char := value.map fun b => .ofNat b.toNat

theorem text_decimal (n : Nat) : text (decimal n) = Nat.toDigits 10 n := by
  rw [text, decimal, List.map_map]
  conv_rhs => rw [← List.map_id (Nat.toDigits 10 n)]
  refine List.map_congr_left fun c hc => ?_
  have digit := Nat.isDigit_of_mem_toDigits (by decide) (Nat.le_refl 10) hc
  have bounds : 48 ≤ c.toNat ∧ c.toNat ≤ 57 := by
    simpa [Char.isDigit, UInt32.le_iff_toNat_le] using digit
  have small : (UInt8.ofNat c.toNat).toNat = c.toNat := by
    rw [UInt8.toNat_ofNat']
    omega
  rw [Function.comp_apply, small, Char.ofNat_toNat, id]

/-- The integer that a string stands for, if it is written as the server writes integers. -/
def Item.number (item : Item) : Nat := Nat.ofDigitChars 10 (text item.value) 0

theorem Item.number_count (n : Nat) : (Item.count n).number = n := by
  rw [Item.number, Item.count, text_decimal, Nat.ofDigitChars_ten_toDigits]

private theorem saturatingAdd_one_ofNat {n : Nat} (small : n + 1 < 2 ^ 64) :
    saturatingAdd (.ofNat n) 1 = .ofNat (n + 1) := by
  have one : (1 : UInt64).toNat = 1 := rfl
  apply UInt64.toNat_inj.mp
  rw [toNat_saturatingAdd, UInt64.toNat_ofNat', UInt64.toNat_ofNat', one]
  omega

/-! ### The server as a store -/

section
variable {blake3 : Bytes → String} {config : RedisCacheConfig}

private theorem entryKey_inj {j k : String} (h : entryKey config j = entryKey config k) : j = k :=
  (String.append_right_inj _).mp ((String.append_right_inj _).mp h)

private theorem entryKey_ne_generationKey (k n : String) :
    entryKey config k ≠ generationKey blake3 config n := by
  intro h
  have := congrArg String.toList ((String.append_right_inj _).mp h)
  simp at this

private theorem generationKey_inj (hash : Function.Injective blake3) {m n : String}
    (h : generationKey blake3 config m = generationKey blake3 config n) : m = n :=
  utf8_inj (hash ((String.append_right_inj _).mp ((String.append_right_inj _).mp h)))

abbrev Items := String → Option Item

namespace Items

/-- The store that the clients see. -/
def store (blake3 : Bytes → String) (config : RedisCacheConfig) (items : Items) : Store where
  content digest := (items (entryKey config digest)).map Item.value
  counter nameSpace := .ofNat (((items (generationKey blake3 config nameSpace)).map Item.number).getD 0)

/-- The generations are integers that are never lost. -/
def Counts (blake3 : Bytes → String) (config : RedisCacheConfig) (items : Items) : Prop :=
  ∀ n, items (generationKey blake3 config n) = none ∨
    ∃ m < 2 ^ 63, items (generationKey blake3 config n) = some (.count m)

variable {s t : Items} {k n : String} {value : Bytes}

private theorem store_content (s : Items) (k : String) :
    (s.store blake3 config).content k = (s (entryKey config k)).map Item.value := rfl

private theorem store_counter (s : Items) (n : String) : (s.store blake3 config).counter n =
    .ofNat (((s (generationKey blake3 config n)).map Item.number).getD 0) := rfl

/-- What lasts has not been changed. -/
theorem content_of_lasts (lasts : Lasts (s (entryKey config k)) (t (entryKey config k))) {b : Bytes}
    (found : (t.store blake3 config).content k = some b) : (s.store blake3 config).content k = some b := by
  rw [store_content] at found ⊢
  rcases lasts with same | ⟨gone, -⟩
  · rwa [same] at found
  · rw [gone] at found
    cases found

theorem Counts.lasts (counts : s.Counts blake3 config)
    (lasts : Lasts (s (generationKey blake3 config n)) (t (generationKey blake3 config n))) :
    t (generationKey blake3 config n) = s (generationKey blake3 config n) := by
  rcases lasts with same | ⟨-, item, present, expires⟩
  · exact same
  · rcases counts n with absent | ⟨m, -, counted⟩
    · rw [absent] at present
      cases present
    · rw [counted] at present
      cases present
      cases expires

/-- Strings that only last are a store that only loses entries. -/
theorem Counts.shrinks (counts : s.Counts blake3 config) (lasts : ∀ k, Lasts (s k) (t k)) :
    (s.store blake3 config).Shrinks (t.store blake3 config) ∧ t.Counts blake3 config := by
  have same (n : String) : t (generationKey blake3 config n) = s (generationKey blake3 config n) :=
    counts.lasts (lasts _)
  refine ⟨⟨content_of_lasts (lasts _), funext fun n => ?_⟩, fun n => ?_⟩
  · rw [store_counter, store_counter, same]
  · rw [same]
    exact counts n

/-- A put of an entry. -/
theorem Counts.put (counts : s.Counts blake3 config)
    (lasts : ∀ l, l ≠ entryKey config k → Lasts (s l) (t l))
    (stored : Lasts (some ⟨value, true⟩) (t (entryKey config k))) :
    ((s.store blake3 config).put k value).Shrinks (t.store blake3 config) ∧
      t.Counts blake3 config := by
  have same (n : String) : t (generationKey blake3 config n) = s (generationKey blake3 config n) :=
    counts.lasts (lasts _ fun h => entryKey_ne_generationKey k n h.symm)
  refine ⟨⟨fun {digest b} found => ?_, funext fun n => ?_⟩, fun n => ?_⟩
  · by_cases here : digest = k
    · subst here
      rw [Store.put_content_self]
      rw [store_content] at found
      rcases stored with same | ⟨gone, -⟩
      · rwa [same] at found
      · rw [gone] at found
        cases found
    · rw [Store.put_content_ne _ _ here]
      exact content_of_lasts (lasts _ fun h => here (entryKey_inj h)) found
  · rw [Store.put_counter, store_counter, store_counter, same]
  · rw [same]
    exact counts n

/-- The increment of a generation. -/
theorem Counts.bump (counts : s.Counts blake3 config) (hash : Function.Injective blake3) {m : Nat}
    (small : m + 1 < 2 ^ 63) (before : (s.store blake3 config).counter n = .ofNat m)
    (lasts : ∀ l, l ≠ generationKey blake3 config n → Lasts (s l) (t l))
    (raised : t (generationKey blake3 config n) = some (.count (m + 1))) :
    ((s.store blake3 config).bump n).Shrinks (t.store blake3 config) ∧ t.Counts blake3 config := by
  have same {l : String} (other : l ≠ n) :
      t (generationKey blake3 config l) = s (generationKey blake3 config l) :=
    counts.lasts (lasts _ fun h => other (generationKey_inj hash h))
  refine ⟨⟨content_of_lasts (lasts _ (entryKey_ne_generationKey _ n)), funext fun l => ?_⟩, fun l => ?_⟩
  · by_cases here : l = n
    · subst here
      rw [Store.bump_counter_self, before, store_counter, raised, Option.map_some, Option.getD_some,
        Item.number_count]
      exact UInt64.ofNat_add m 1
    · rw [Store.bump_counter_ne _ here, store_counter, store_counter, same here]
  · by_cases here : l = n
    · subst here
      exact .inr ⟨m + 1, small, raised⟩
    · rw [same here]
      exact counts l

/-- Nothing has been stored or invalidated yet. -/
structure Unused (blake3 : Bytes → String) (config : RedisCacheConfig) (items : Items) : Prop where
  entries : ∀ k, items (entryKey config k) = none
  generations : ∀ n, items (generationKey blake3 config n) = none

theorem Unused.counts (unused : s.Unused blake3 config) : s.Counts blake3 config :=
  fun n => .inl (unused.generations n)

theorem Unused.store_eq (unused : s.Unused blake3 config) : s.store blake3 config = .empty := by
  unfold store Store.empty
  congr 1
  · funext k
    rw [unused.entries]
    rfl
  · funext n
    rw [unused.generations]
    rfl

/-- The integer at the key of a generation. -/
theorem Counts.count (counts : s.Counts blake3 config) (n : String) : ∃ m < 2 ^ 63,
    (s.store blake3 config).counter n = .ofNat m ∧
      (s (generationKey blake3 config n) = none ∧ m = 0 ∨
        s (generationKey blake3 config n) = some (.count m)) := by
  rcases counts n with absent | ⟨m, small, present⟩
  · refine ⟨0, by decide, ?_, .inl ⟨absent, rfl⟩⟩
    rw [store_counter, absent]
    rfl
  · refine ⟨m, small, ?_, .inr present⟩
    rw [store_counter, present, Option.map_some, Option.getD_some, Item.number_count]

end Items

/-- What an operation makes of the reply to its command. -/
def answer (blake3 : Bytes → String) (config : RedisCacheConfig) :
    (op : BackendOp) → (command blake3 config op).Reply → op.Res
  | .get _, value => .ok value
  | .put _ _ _, _ => .ok ()
  | .generation _, gen => .ok (gen.getD 0)
  | .bumpGeneration _, gen => .ok gen

variable {S : Server} {view : S.State → String → Option Item}

/-- The server carries out an operation as the ideal store does, or reports an error; what has a deadline
may be lost meanwhile. -/
inductive Executed (view : S.State → String → Option Item) (blake3 : Bytes → String)
    (config : RedisCacheConfig) (op : BackendOp) (s : S.State)
    (out : Except String (command blake3 config op).Reply × S.State) : Prop
  | done {value : (command blake3 config op).Reply} (replied : out.1 = .ok value)
    (serves : Store.Serves op (answer blake3 config op value) (Items.store blake3 config (view s))
      (Items.store blake3 config (view out.2)))
    (applied : ((Items.store blake3 config (view s)).apply op).Shrinks
      (Items.store blake3 config (view out.2)))
    (counts : Items.Counts blake3 config (view out.2))
  | refused {message : String} (replied : out.1 = .error message)
    (lost : (Items.store blake3 config (view s)).Shrinks (Items.store blake3 config (view out.2)))
    (counts : Items.Counts blake3 config (view out.2))

open Items in
/-- The commands of operations, by what is documented of the server. -/
theorem executed (documented : S.Documented view) (hash : Function.Injective blake3) {s : S.State}
    (counts : Counts blake3 config (view s)) (now : S.Moment) (op : BackendOp) :
    Executed view blake3 config op s (S.exec now (command blake3 config op) s) := by
  have elsewhere := documented.elsewhere now (command blake3 config op) s
  have everywhere (here : Lasts (view s (command blake3 config op).key)
      (view (S.exec now (command blake3 config op) s).2 (command blake3 config op).key)) (k : String) :
      Lasts (view s k) (view (S.exec now (command blake3 config op) s).2 k) := by
    by_cases same : k = (command blake3 config op).key
    · rw [same]
      exact here
    · exact elsewhere k same
  cases op with
  | get k =>
    obtain ⟨lasts, reads⟩ := documented.get now (entryKey config k) s
    obtain ⟨lost, kept⟩ := counts.shrinks (everywhere lasts)
    cases reply : (S.exec now (.get (entryKey config k)) s).1 with
    | error message => exact .refused reply lost kept
    | ok value =>
      refine .done reply ⟨?_, lost⟩ lost kept
      cases value with
      | none => exact .inl rfl
      | some value =>
        obtain ⟨item, present, rfl⟩ := reads value reply
        refine .inr (congrArg Except.ok ?_)
        rw [store_content, present]
        rfl
  | put k v ttl =>
    rcases documented.psetex now (entryKey config k) (if durationMs ttl < 1 then 1 else durationMs ttl) v
      s with ⟨reply, stored⟩ | ⟨message, reply, lasts⟩
    · obtain ⟨put, kept⟩ := counts.put elsewhere stored
      exact .done reply ⟨rfl, put⟩ put kept
    · obtain ⟨lost, kept⟩ := counts.shrinks (everywhere lasts)
      exact .refused reply lost kept
  | generation n =>
    obtain ⟨lasts, reads⟩ := documented.getNumber now (generationKey blake3 config n) s
    obtain ⟨lost, kept⟩ := counts.shrinks (everywhere lasts)
    cases reply : (S.exec now (.getNumber (generationKey blake3 config n)) s).1 with
    | error message => exact .refused reply lost kept
    | ok number =>
      refine .done reply ⟨congrArg Except.ok ?_, lost⟩ lost kept
      obtain ⟨absent, present⟩ := reads number reply
      obtain ⟨m, small, counter, ⟨missing, rfl⟩ | found⟩ := counts.count n
      · rw [counter, absent missing]
        rfl
      · rw [counter, present m small found]
        rfl
  | bumpGeneration n =>
    obtain ⟨m, small, counter, found⟩ := counts.count n
    rcases documented.incr now (generationKey blake3 config n) s m small found with
      ⟨room, reply, raised⟩ | ⟨message, reply, same⟩
    · obtain ⟨bumped, kept⟩ := counts.bump hash room counter elsewhere raised
      refine .done reply ⟨congrArg Except.ok ?_, bumped⟩ bumped kept
      rw [counter]
      exact (saturatingAdd_one_ofNat (by omega)).symm
    · obtain ⟨lost, kept⟩ := counts.shrinks (everywhere (.inl same))
      exact .refused reply lost kept

/-! ### The clients -/

variable {b : RedisCacheBackend} {env : Environment}

/-- What the caller of an operation learns. -/
inductive Resulted (blake3 : Bytes → String) (op : BackendOp) (env : Environment)
    (b : RedisCacheBackend) : Prop
  | unsent (sent : (perform blake3 op env b).sent = [])
    (failed : op.Failed (perform blake3 op env b).result)
  | failed (sent : (perform blake3 op env b).sent ≠ [])
    (outcome : ∀ value, env.server (command blake3 b.config op) ≠ .success value)
    (failed : op.Failed (perform blake3 op env b).result)
  | succeeded (sent : (perform blake3 op env b).sent ≠ [])
    {value : (command blake3 b.config op).Reply}
    (outcome : env.server (command blake3 b.config op) = .success value)
    (result : (perform blake3 op env b).result = answer blake3 b.config op value)

/-- The result of `run`. -/
inductive RunResult (b : RedisCacheBackend) (op : Command) (env : Environment) : Prop
  | unsent {e : CacheError} (sent : (b.run op env).sent = []) (result : (b.run op env).result = .error e)
  | failed {e : CacheError} (sent : (b.run op env).sent ≠ [])
    (outcome : ∀ value, env.server op ≠ .success value) (result : (b.run op env).result = .error e)
  | succeeded {value : op.Reply} (sent : (b.run op env).sent ≠ [])
    (outcome : env.server op = .success value) (result : (b.run op env).result = .ok value)

private theorem runResult (b : RedisCacheBackend) (op : Command) (env : Environment) :
    RunResult b op env := by
  by_cases early : env.now < b.circuitOpenUntilMs
  · have refused : b.run op env = ⟨.error (.backend "redis circuit is open"), [], b⟩ := by
      rw [run, if_pos early]
    exact .unsent (congrArg Done.sent refused) (congrArg Done.result refused)
  · cases outcome : env.server op with
    | success value =>
      refine .succeeded ?_ outcome ?_
      all_goals rw [run, if_neg early, outcome]
      exact List.cons_ne_nil _ _
    | error message =>
      refine .failed (e := .backend message) ?_ (fun value same => ?_) ?_
      · rw [run, if_neg early, outcome]
        exact List.cons_ne_nil _ _
      · rw [outcome] at same
        cases same
      · rw [run, if_neg early, outcome]
    | timeout =>
      refine .failed (e := .backend "redis operation timed out") ?_ (fun value same => ?_) ?_
      · rw [run, if_neg early, outcome]
        exact List.cons_ne_nil _ _
      · rw [outcome] at same
        cases same
      · rw [run, if_neg early, outcome]

/-- An operation makes an answer of what its command comes to. -/
theorem perform_result (blake3 : Bytes → String) (op : BackendOp) (env : Environment)
    (b : RedisCacheBackend) :
    (∀ e, (b.run (command blake3 b.config op) env).result = .error e →
      op.Failed (perform blake3 op env b).result) ∧
    ∀ value, (b.run (command blake3 b.config op) env).result = .ok value →
      (perform blake3 op env b).result = answer blake3 b.config op value := by
  cases op with
  | get k => exact ⟨fun e error => ⟨e, error⟩, fun value ok => ok⟩
  | put k v ttl => exact ⟨fun e error => ⟨e, error⟩, fun value ok => ok⟩
  | generation n =>
    refine ⟨fun e error => ⟨e, ?_⟩, fun value ok => ?_⟩
    · exact congrArg (Except.map fun gen : Option UInt64 => gen.getD 0) error
    · exact congrArg (Except.map fun gen : Option UInt64 => gen.getD 0) ok
  | bumpGeneration n =>
    change (∀ e, (b.run (.incr (generationKey blake3 b.config n)) env).result = .error e →
      ∃ e, (b.bumpGeneration blake3 n env).result = .error e) ∧
      ∀ value, (b.run (.incr (generationKey blake3 b.config n)) env).result = .ok value →
        (b.bumpGeneration blake3 n env).result = .ok value
    refine ⟨fun e error => ⟨e, ?_⟩, fun value ok => ?_⟩
    · rw [bumpGeneration, error]
    · rw [bumpGeneration, ok]

private theorem resulted (blake3 : Bytes → String) (op : BackendOp) (env : Environment)
    (b : RedisCacheBackend) : Resulted blake3 op env b := by
  obtain ⟨sends, -⟩ := perform_run blake3 op env b
  obtain ⟨fails, succeeds⟩ := perform_result blake3 op env b
  cases runResult b (command blake3 b.config op) env with
  | unsent sent result => exact .unsent (sends.trans sent) (fails _ result)
  | failed sent outcome result => exact .failed (sends.trans_ne sent) outcome (fails _ result)
  | succeeded sent outcome result =>
    exact .succeeded (sends.trans_ne sent) outcome (succeeds _ result)

theorem perform_config (blake3 : Bytes → String) (op : BackendOp) (env : Environment)
    (b : RedisCacheBackend) : (perform blake3 op env b).backend.config = b.config := by
  cases stepped blake3 ⟨op, env⟩ b with
  | refused _ _ backend => exact congrArg RedisCacheBackend.config backend
  | succeeded _ _ _ backend => exact (congrArg RedisCacheBackend.config backend).trans rfl
  | failed _ _ _ _ backend => exact (congrArg RedisCacheBackend.config backend).trans rfl
  | opened _ _ _ _ backend => exact (congrArg RedisCacheBackend.config backend).trans rfl

/-! ### The network as a remote store -/

namespace Network
variable {K : Type} [DecidableEq K]

/-- What the clients and the server are like at any time. -/
structure Sound (view : S.State → String → Option Item) (blake3 : Bytes → String)
    (config : RedisCacheConfig) (net : Network K S) : Prop where
  configured : ∀ k, (net.clients k).config = config
  counts : Items.Counts blake3 config (view net.server)

def remote (view : S.State → String → Option Item) (blake3 : Bytes → String)
    (config : RedisCacheConfig) (net : Network K S) : Remote :=
  ⟨Items.store blake3 config (view net.server), net.due⟩

variable {net : Network K S}

omit [DecidableEq K] in
/-- What happens without a call is a drift of the remote store. -/
theorem Sound.after (sound : net.Sound view blake3 config) (documented : S.Documented view)
    (hash : Function.Injective blake3) (event : Happening S) :
    (net.happens blake3 config event).Sound view blake3 config ∧
      (net.remote view blake3 config).Drifts
        ((net.happens blake3 config event).remote view blake3 config) := by
  cases event with
  | befell incident =>
    obtain ⟨lost, kept⟩ := sound.counts.shrinks (documented.befall incident net.server)
    exact ⟨⟨sound.configured, kept⟩, .single (.loses lost)⟩
  | arrived position now =>
    cases found : net.due[position]? with
    | none =>
      rw [Network.happens, found]
      exact ⟨sound, .refl⟩
    | some op =>
      rw [Network.happens, found]
      cases executed documented hash sound.counts now op with
      | done _ _ applied counts =>
        exact ⟨⟨sound.configured, counts⟩, (Remote.drifts_arrived _ found).tail (.loses applied)⟩
      | refused _ lost counts =>
        exact ⟨⟨sound.configured, counts⟩, (Remote.drifts_dropped _ _ position).tail (.loses lost)⟩
  | dropped position =>
    exact ⟨⟨sound.configured, sound.counts⟩, Remote.drifts_dropped _ _ position⟩

omit [DecidableEq K] in
theorem Sound.happened (sound : net.Sound view blake3 config) (documented : S.Documented view)
    (hash : Function.Injective blake3) (events : List (Happening S)) :
    (events.foldl (happens blake3 config) net).Sound view blake3 config ∧
      (net.remote view blake3 config).Drifts
        ((events.foldl (happens blake3 config) net).remote view blake3 config) := by
  induction events generalizing net with
  | nil => exact ⟨sound, .refl⟩
  | cons event events ih =>
    obtain ⟨next, drifts⟩ := sound.after documented hash event
    obtain ⟨last, later⟩ := ih next
    exact ⟨last, drifts.trans later⟩

/-- A client that has sent nothing, or got an error. -/
theorem Sound.set_client (sound : net.Sound view blake3 config) {k : K} {b : RedisCacheBackend}
    (configured : b.config = config) :
    ({ net with clients := Function.update net.clients k b } : Network K S).Sound view blake3
      config := by
  refine ⟨fun l => ?_, sound.counts⟩
  dsimp only
  by_cases same : l = k
  · subst same
    rw [Function.update_self]
    exact configured
  · rw [Function.update_of_ne same]
    exact sound.configured l

omit [DecidableEq K] in
/-- What a call without an answer leaves behind. -/
theorem Sound.send_failed (sound : net.Sound view blake3 config) (documented : S.Documented view)
    (hash : Function.Injective blake3) (now : S.Moment) {op : BackendOp} {r : op.Res}
    (failed : op.Failed r) (fate : Fate) :
    (net.send blake3 config now op fate).Sound view blake3 config ∧
      Remote.Answers op r (net.remote view blake3 config)
        ((net.send blake3 config now op fate).remote view blake3 config) := by
  have reached : (net.hear blake3 config now op).Sound view blake3 config ∧
      Remote.Answers op r (net.remote view blake3 config)
        ((net.hear blake3 config now op).remote view blake3 config) := by
    cases executed documented hash sound.counts now op with
    | done _ _ applied counts =>
      exact ⟨⟨sound.configured, counts⟩, .fails failed (Store.fails_of_apply applied)⟩
    | refused _ lost counts =>
      exact ⟨⟨sound.configured, counts⟩, .fails failed (Store.fails_of_shrinks lost)⟩
  cases fate with
  | answered => exact reached
  | broken failure reach =>
    cases reach with
    | now => exact reached
    | later => exact ⟨⟨sound.configured, sound.counts⟩, .delayed failed⟩
    | never =>
      exact ⟨⟨sound.configured, sound.counts⟩, .fails failed (Store.fails_of_shrinks (.refl _))⟩

private theorem answered_of_success {R : Type} {fate : Fate} {reply : Except String R} {value : R}
    (success : fate.outcome reply = .success value) : fate = .answered ∧ reply = .ok value := by
  cases fate with
  | answered =>
    cases reply with
    | ok v =>
      cases success
      exact ⟨rfl, rfl⟩
    | error message => cases success
  | broken failure reach =>
    cases failure with
    | none => cases success
    | some message => cases success

omit [DecidableEq K] in
private theorem send_of_answered {now : S.Moment} {op : BackendOp} {fate : Fate}
    (answered : fate = .answered) :
    net.send blake3 config now op fate = net.hear blake3 config now op := by
  rw [answered, send]

/-- Every call keeps the network sound, and is one of a remote store. -/
theorem Sound.perform (sound : net.Sound view blake3 config) (documented : S.Documented view)
    (hash : Function.Injective blake3) (op : BackendOp) (ch : NetworkChoice K S) :
    (net.perform blake3 config op ch).2.Sound view blake3 config ∧
      ∃ r, (net.remote view blake3 config).Drifts r ∧
        Remote.Answers op (net.perform blake3 config op ch).1 r
          ((net.perform blake3 config op ch).2.remote view blake3 config) := by
  obtain ⟨before, drifts⟩ := sound.happened documented hash ch.before
  unfold Network.perform
  dsimp only
  generalize ch.before.foldl (Network.happens blake3 config) net = mid at before drifts
  have configured := before.configured ch.client
  have kept := (perform_config blake3 op ⟨ch.now, ch.failedAt, fun command =>
    ch.fate.outcome (S.exec ch.serverNow command mid.server).1⟩ (mid.clients ch.client)).trans configured
  have settled := before.set_client (k := ch.client) kept
  cases resulted blake3 op ⟨ch.now, ch.failedAt, fun command =>
      ch.fate.outcome (S.exec ch.serverNow command mid.server).1⟩ (mid.clients ch.client) with
  | unsent sent failed =>
    rw [if_pos sent]
    exact ⟨settled, _, drifts, .fails failed (Store.fails_of_shrinks (.refl _))⟩
  | failed sent _ failed =>
    rw [if_neg sent]
    obtain ⟨after, answers⟩ := settled.send_failed documented hash ch.serverNow failed ch.fate
    exact ⟨after, _, drifts, answers⟩
  | @succeeded sent value outcome result =>
    rw [if_neg sent, result]
    subst configured
    obtain ⟨answered, reply⟩ := answered_of_success outcome
    rw [send_of_answered answered]
    cases executed documented hash before.counts ch.serverNow op with
    | done replied serves _ counts =>
      rw [reply] at replied
      cases replied
      exact ⟨⟨settled.configured, counts⟩, _, drifts, .serves serves⟩
    | refused replied _ _ =>
      rw [reply] at replied
      cases replied

/-- Clients that have just connected to a server. -/
def new (config : RedisCacheConfig) (server : S.State) : Network K S := ⟨fun _ => connect config, server, []⟩

omit [DecidableEq K] in
private theorem new_sound {server : S.State} (unused : Items.Unused blake3 config (view server)) :
    (new config server : Network K S).Sound view blake3 config :=
  ⟨fun _ => rfl, unused.counts⟩

end Network
end

section
variable (K : Type) [DecidableEq K] {S : Server} {view : S.State → String → Option Item}
variable (documented : S.Documented view) {blake3 : Bytes → String} (hash : Function.Injective blake3)
variable (config : RedisCacheConfig)

/-- The backends of some processes over one server. -/
def backend : CacheBackend where
  State := { net : Network K S // net.Sound view blake3 config }
  Choice := NetworkChoice K S
  perform op ch net := ((net.val.perform blake3 config op ch).1,
    ⟨(net.val.perform blake3 config op ch).2, (net.property.perform documented hash op ch).1⟩)

variable {config} in
def connected {server : S.State} (unused : Items.Unused blake3 config (view server)) :
    (backend K documented hash config).State :=
  ⟨.new config server, Network.new_sound unused⟩

def lagging : (backend K documented hash config).Lagging where
  abs net := net.val.remote view blake3 config
  answers op ch net := (net.property.perform documented hash op ch).2

end
end RbatisCache.Redis
