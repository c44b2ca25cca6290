import RbatisCache.Redis.Keyspace

/-! Applications that share a server under different key prefixes. A command touches one key, and no key
belongs to two prefixes. -/
namespace RbatisCache.Redis
open RedisCacheBackend

/-! ### Prefixes -/

/-- Digests and hashes are written in hexadecimal digits. -/
def Plain (text : String) : Prop := ':' ∉ text.toList

/-- The keys of an application. -/
def Owned (blake3 : Bytes → String) (config : RedisCacheConfig) (key : String) : Prop :=
  (∃ digest, Plain digest ∧ key = entryKey config digest) ∨
    ∃ nameSpace, key = generationKey blake3 config nameSpace

/-- The keys that an operation asks for are digests. -/
def Digested : BackendOp → Prop
  | .get key | .put key _ _ => Plain key
  | .generation _ | .bumpGeneration _ => True

section
variable {blake3 : Bytes → String} {config other : RedisCacheConfig}

private theorem last_colon {a b c d : List Char} (hb : ':' ∉ b) (hd : ':' ∉ d)
    (same : a ++ ':' :: b = c ++ ':' :: d) : a = c ∧ b = d := by
  rcases List.append_eq_append_iff.mp same with ⟨between, rfl, rest⟩ | ⟨between, rfl, rest⟩
  · cases between with
    | nil => exact ⟨(List.append_nil a).symm, (List.cons.inj rest).2⟩
    | cons x between =>
      have more : ':' ∈ b := by
        rw [(List.cons.inj rest).2]
        exact List.mem_append_right _ List.mem_cons_self
      exact absurd more hb
  · cases between with
    | nil => exact ⟨List.append_nil c, (List.cons.inj rest).2.symm⟩
    | cons x between =>
      have more : ':' ∈ d := by
        rw [(List.cons.inj rest).2]
        exact List.mem_append_right _ List.mem_cons_self
      exact absurd more hd

private theorem owned_command {op : BackendOp} (digested : Digested op) :
    Owned blake3 config (command blake3 config op).key := by
  cases op with
  | get k | put k => exact .inl ⟨k, digested, rfl⟩
  | generation n | bumpGeneration n => exact .inr ⟨n, rfl⟩

/-- What stands between the last two colons of a key. -/
def kinds : List (List Char) := ["entry".toList, "generation".toList]

/-- A key is a prefix, a kind and a digest or hash. -/
theorem owned_split (hex : ∀ bytes, Plain (blake3 bytes)) {key : String} (owned : Owned blake3 config key) :
    ∃ kind ∈ kinds, ∃ after, ':' ∉ after ∧
      key.toList = (config.keyPrefix.toList ++ ':' :: kind) ++ ':' :: after := by
  rcases owned with ⟨digest, plain, rfl⟩ | ⟨n, rfl⟩
  · refine ⟨_, .head _, digest.toList, plain, ?_⟩
    simp [entryKey]
  · refine ⟨_, .tail _ (.head _), (blake3 (utf8 n)).toList, hex _, ?_⟩
    simp [generationKey]

private theorem kinds_plain : ∀ kind ∈ kinds, ':' ∉ kind := by decide

private theorem owned_apart (hex : ∀ bytes, Plain (blake3 bytes))
    (different : config.keyPrefix ≠ other.keyPrefix)
    {key : String} (owned : Owned blake3 config key) : ¬ Owned blake3 other key := by
  intro foreign
  obtain ⟨kind, known, after, plain, split⟩ := owned_split hex owned
  obtain ⟨kind', known', after', plain', split'⟩ := owned_split hex foreign
  obtain ⟨front, -⟩ := last_colon plain plain' (split.symm.trans split')
  obtain ⟨same, -⟩ := last_colon (kinds_plain kind known) (kinds_plain kind' known') front
  exact different (String.toList_inj.mp same)

/-! ### An application and the others -/

/-- An operation depends on the server only at its command. -/
theorem perform_congr {now failedAt : UInt64} {server server' : (c : Command) → Outcome c.Reply}
    {op : BackendOp} {b : RedisCacheBackend}
    (same : server (command blake3 b.config op) = server' (command blake3 b.config op)) :
    perform blake3 op ⟨now, failedAt, server⟩ b = perform blake3 op ⟨now, failedAt, server'⟩ b := by
  have runs : b.run (command blake3 b.config op) ⟨now, failedAt, server⟩ =
      b.run (command blake3 b.config op) ⟨now, failedAt, server'⟩ := by
    unfold run
    dsimp only
    rw [same]
  cases op with
  | get k => exact runs
  | put k v ttl => exact runs
  | generation n =>
    change b.generation blake3 n _ = b.generation blake3 n _
    have runs : b.run (.getNumber (generationKey blake3 b.config n)) ⟨now, failedAt, server⟩ =
      b.run (.getNumber (generationKey blake3 b.config n)) ⟨now, failedAt, server'⟩ := runs
    rw [generation, generation, runs]
  | bumpGeneration n =>
    change b.bumpGeneration blake3 n _ = b.bumpGeneration blake3 n _
    have runs : b.run (.incr (generationKey blake3 b.config n)) ⟨now, failedAt, server⟩ =
      b.run (.incr (generationKey blake3 b.config n)) ⟨now, failedAt, server'⟩ := runs
    rw [bumpGeneration, bumpGeneration, runs]

variable {K : Type} [DecidableEq K] {S : Server}

/-- What happens to the server: calls of an application, and commands of another one. -/
inductive Traffic (K : Type) (S : Server) where
  | mine (op : BackendOp) (ch : NetworkChoice K S)
  | theirs (now : S.Moment) (op : BackendOp)

def Traffic.isMine : Traffic K S → Bool
  | .mine _ _ => true
  | .theirs _ _ => false

def Traffic.op : Traffic K S → BackendOp
  | .mine op _ | .theirs _ op => op

/-- What the calls of the application return. -/
def serve (blake3 : Bytes → String) (config other : RedisCacheConfig) :
    List (Traffic K S) → Network K S → List (Sigma BackendOp.Res)
  | [], _ => []
  | .mine op ch :: rest, net =>
    let out := net.perform blake3 config op ch
    ⟨op, out.1⟩ :: serve blake3 config other rest out.2
  | .theirs now op :: rest, net => serve blake3 config other rest (net.hear blake3 other now op)

variable {α : Type}

namespace Network

/-- Two networks that an application cannot tell apart. -/
structure Alike (strings : S.State → String → α) (blake3 : Bytes → String) (config : RedisCacheConfig)
    (net net' : Network K S) : Prop where
  configured : ∀ k, (net.clients k).config = config
  clients : net.clients = net'.clients
  due : net.due = net'.due
  digested : ∀ op ∈ net.due, Digested op
  strings : ∀ key, Owned blake3 config key → strings net.server key = strings net'.server key

variable {strings : S.State → String → α} {net net' : Network K S}

omit [DecidableEq K] in
theorem Alike.hear (alike : Alike strings blake3 config net net') (separates : S.Separates strings)
    {op : BackendOp} (digested : Digested op) (now : S.Moment) :
    (S.exec now (command blake3 config op) net.server).1 =
      (S.exec now (command blake3 config op) net'.server).1 ∧
    Alike strings blake3 config (net.hear blake3 config now op) (net'.hear blake3 config now op) := by
  obtain ⟨reply, here⟩ := separates.exec now (command blake3 config op) net.server net'.server
    (alike.strings _ (owned_command digested))
  refine ⟨reply, alike.configured, alike.clients, alike.due, alike.digested, fun key owned => ?_⟩
  by_cases same : key = (command blake3 config op).key
  · rw [same]
    exact here
  · exact (separates.elsewhere now _ _ key same).trans
      ((alike.strings key owned).trans (separates.elsewhere now _ _ key same).symm)

omit [DecidableEq K] in
theorem Alike.erase (alike : Alike strings blake3 config net net') (position : Nat) :
    Alike strings blake3 config { net with due := net.due.eraseIdx position }
      { net' with due := net'.due.eraseIdx position } :=
  ⟨alike.configured, alike.clients, congrArg (List.eraseIdx · position) alike.due,
    fun op waits => alike.digested op (List.mem_of_mem_eraseIdx waits), alike.strings⟩

omit [DecidableEq K] in
theorem Alike.happens (alike : Alike strings blake3 config net net') (separates : S.Separates strings)
    (event : Happening S) :
    Alike strings blake3 config (net.happens blake3 config event) (net'.happens blake3 config event) := by
  cases event with
  | befell incident =>
    exact ⟨alike.configured, alike.clients, alike.due, alike.digested,
      fun key owned => separates.befall incident _ _ key (alike.strings key owned)⟩
  | arrived position now =>
    rw [Network.happens, Network.happens, ← alike.due]
    cases found : net.due[position]? with
    | none => exact alike
    | some op =>
      obtain ⟨-, heard⟩ := alike.hear separates (alike.digested op (List.mem_of_getElem? found)) now
      have erased := heard.erase position
      rw [Network.hear, Network.hear, ← alike.due] at erased
      exact erased
  | dropped position => exact alike.erase position

omit [DecidableEq K] in
theorem Alike.happened (alike : Alike strings blake3 config net net') (separates : S.Separates strings)
    (events : List (Happening S)) :
    Alike strings blake3 config (events.foldl (Network.happens blake3 config) net)
      (events.foldl (Network.happens blake3 config) net') := by
  induction events generalizing net net' with
  | nil => exact alike
  | cons event events ih => exact ih (alike.happens separates event)

omit [DecidableEq K] in
theorem Alike.send (alike : Alike strings blake3 config net net') (separates : S.Separates strings)
    {op : BackendOp} (digested : Digested op) (now : S.Moment) (fate : Fate) :
    Alike strings blake3 config (net.send blake3 config now op fate)
      (net'.send blake3 config now op fate) := by
  obtain ⟨-, reached⟩ := alike.hear separates digested now
  cases fate with
  | answered => exact reached
  | broken failure reach =>
    cases reach with
    | now => exact reached
    | later =>
      exact ⟨alike.configured, alike.clients, congrArg (op :: ·) alike.due,
        List.forall_mem_cons.mpr ⟨digested, alike.digested⟩, alike.strings⟩
    | never => exact alike

theorem Alike.set_client (alike : Alike strings blake3 config net net') {k : K} {b : RedisCacheBackend}
    (configured : b.config = config) :
    Alike strings blake3 config { net with clients := Function.update net.clients k b }
      { net' with clients := Function.update net'.clients k b } := by
  refine ⟨fun l => ?_, congrArg (Function.update · k b) alike.clients, alike.due, alike.digested,
    alike.strings⟩
  dsimp only
  by_cases here : l = k
  · subst here
    rw [Function.update_self]
    exact configured
  · rw [Function.update_of_ne here]
    exact alike.configured l

theorem Alike.perform (alike : Alike strings blake3 config net net') (separates : S.Separates strings)
    {op : BackendOp} (digested : Digested op) (ch : NetworkChoice K S) :
    (net.perform blake3 config op ch).1 = (net'.perform blake3 config op ch).1 ∧
      Alike strings blake3 config (net.perform blake3 config op ch).2
        (net'.perform blake3 config op ch).2 := by
  have before := alike.happened separates ch.before
  unfold Network.perform
  dsimp only
  generalize ch.before.foldl (Network.happens blake3 config) net = mid at before
  generalize ch.before.foldl (Network.happens blake3 config) net' = mid' at before
  have same : RedisCacheBackend.perform blake3 op ⟨ch.now, ch.failedAt, fun command =>
        ch.fate.outcome (S.exec ch.serverNow command mid.server).1⟩ (mid.clients ch.client) =
      RedisCacheBackend.perform blake3 op ⟨ch.now, ch.failedAt, fun command =>
        ch.fate.outcome (S.exec ch.serverNow command mid'.server).1⟩ (mid'.clients ch.client) := by
    rw [← before.clients]
    refine perform_congr ?_
    rw [before.configured]
    exact congrArg ch.fate.outcome (before.hear separates digested ch.serverNow).1
  have kept := (perform_config blake3 op ⟨ch.now, ch.failedAt, fun command =>
    ch.fate.outcome (S.exec ch.serverNow command mid'.server).1⟩ (mid'.clients ch.client)).trans
    (before.clients ▸ before.configured ch.client)
  rw [same]
  refine ⟨rfl, ?_⟩
  have settled := before.set_client (k := ch.client) kept
  split
  · exact settled
  · exact settled.send separates digested ch.serverNow ch.fate

omit [DecidableEq K] in
/-- The other application leaves the keys of this one alone. -/
theorem Alike.theirs (alike : Alike strings blake3 config net net') (separates : S.Separates strings)
    (hex : ∀ bytes, Plain (blake3 bytes)) (different : config.keyPrefix ≠ other.keyPrefix)
    {op : BackendOp} (digested : Digested op) (now : S.Moment) :
    Alike strings blake3 config (net.hear blake3 other now op) net' := by
  refine ⟨alike.configured, alike.clients, alike.due, alike.digested, fun key owned => ?_⟩
  have apart : key ≠ (command blake3 other op).key := by
    rintro rfl
    exact owned_apart hex different owned (owned_command digested)
  exact (separates.elsewhere now _ _ key apart).trans (alike.strings key owned)

end Network

variable {strings : S.State → String → α}

/-- Applications with different key prefixes share a server without noticing: whatever the digests and
namespaces of the other one, whatever happens to commands and whatever is lost at which keys, the calls of
an application return what they would return if it were alone. Digests and hashes have no colons. -/
theorem prefixes_are_isolated (separates : S.Separates strings) (hex : ∀ bytes, Plain (blake3 bytes))
    (different : config.keyPrefix ≠ other.keyPrefix) (traffic : List (Traffic K S))
    (digested : ∀ t ∈ traffic, Digested t.op) (net : Network K S)
    (configured : ∀ k, (net.clients k).config = config) (settled : net.due = []) :
    serve blake3 config other traffic net =
      serve blake3 config other (traffic.filter Traffic.isMine) net := by
  have alike : Network.Alike strings blake3 config net net := by
    refine ⟨configured, rfl, rfl, ?_, fun _ _ => rfl⟩
    rw [settled]
    exact nofun
  suffices same : ∀ net net' : Network K S, Network.Alike strings blake3 config net net' →
      serve blake3 config other traffic net =
        serve blake3 config other (traffic.filter Traffic.isMine) net' from same net net alike
  clear alike configured settled net
  induction traffic with
  | nil => exact fun _ _ _ => rfl
  | cons t rest ih =>
    intro net net' alike
    have later := ih fun t ht => digested t (List.mem_cons_of_mem _ ht)
    cases t with
    | mine op ch =>
      have asked : Digested op := digested (.mine op ch) List.mem_cons_self
      obtain ⟨result, after⟩ := alike.perform separates asked ch
      rw [List.filter_cons_of_pos rfl, serve, serve, result, later _ _ after]
    | theirs now op =>
      have asked : Digested op := digested (.theirs now op) List.mem_cons_self
      rw [List.filter_cons_of_neg Bool.false_ne_true, serve]
      exact later _ _ (alike.theirs separates hex different asked now)

end

/-- A hash in hexadecimal digits. -/
def Sample.hexadecimal (bytes : Bytes) : String :=
  .ofList (bytes.flatMap fun b => [Nat.digitChar (b.toNat / 16), Nat.digitChar (b.toNat % 16)])

theorem Sample.hexadecimal_plain (bytes : Bytes) : Plain (Sample.hexadecimal bytes) := by
  have digit : ∀ n < 16, ':' ≠ Nat.digitChar n := by decide
  have high (b : UInt8) : b.toNat / 16 < 16 := by
    have := b.toNat_lt
    omega
  simp only [Plain, Sample.hexadecimal, String.toList_ofList, List.mem_flatMap, List.mem_cons,
    List.not_mem_nil, or_false]
  rintro ⟨b, -, here | here⟩
  · exact digit _ (high b) here
  · exact digit _ (Nat.mod_lt _ (by decide)) here

def Sample.calm : NetworkChoice Unit Keyspace.server := ⟨(), [], 5, 5, (5 : Nat), .answered⟩

def Sample.theirs (op : BackendOp) : Traffic Unit Keyspace.server := .theirs (5 : Nat) op

def Sample.alone : Network Unit Keyspace.server := .new {} fun _ => none

/-- Two applications store under one digest. -/
theorem same_digest_kept_apart :
    serve Sample.hexadecimal {} { keyPrefix := "orders:cache" }
      [.mine (.put "d1" [1] (.fromMins 1)) Sample.calm, Sample.theirs (.put "d1" [2] (.fromMins 1)),
        Sample.theirs (.bumpGeneration "ns"), .mine (.get "d1") Sample.calm,
        .mine (.generation "ns") Sample.calm] Sample.alone =
    serve Sample.hexadecimal {} { keyPrefix := "orders:cache" }
      [.mine (.put "d1" [1] (.fromMins 1)) Sample.calm, .mine (.get "d1") Sample.calm,
        .mine (.generation "ns") Sample.calm] Sample.alone := by
  have plain : Plain "d1" := by
    unfold Plain
    decide
  refine prefixes_are_isolated Keyspace.separates Sample.hexadecimal_plain (by decide) _ ?_ _ (fun _ => rfl) rfl
  simp only [List.forall_mem_cons]
  exact ⟨plain, plain, trivial, plain, trivial, nofun⟩

end RbatisCache.Redis
