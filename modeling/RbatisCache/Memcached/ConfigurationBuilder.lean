import RbatisCache.Collections.LastWrite
import RbatisCache.Memcached.AddressList
import RbatisCache.Memcached.Model
import RbatisCache.Redis.Properties

/-! The whole configuration of the memcached backend (`configuration.rs`) and how it is read from a
properties text (`configuration_builder.rs`), whose lines are those of the other builder. Nothing that
such a text says is lost, and what it can say is exactly what can be written to one. -/
namespace RbatisCache.Memcached
open Text
open Redis.RedisConfigurationBuilder (settings IsValue IsSetting print settings_print isValue_nat
  isValue_bool foldl_settings)

inductive ConnectionFactoryKind where
  | binary
  | text
  | sasl
  deriving DecidableEq

/-- All of `MemcachedConfiguration`, and its `Default`. -/
@[ext] structure FullConfiguration extends MemcachedConfiguration where
  servers : AddressList := [("127.0.0.1", 11211)]
  connectionFactory : ConnectionFactoryKind := .binary
  expiration : Duration := .fromSecs (60 * 60 * 24)
  operationTimeout : Duration := .fromSecs 1
  asyncGet : Bool := false
  compression : Bool := false
  sasl : Bool := false
  username : Option String := none
  password : Option String := none

namespace MemcachedConfigurationBuilder

/-- The arms of `apply_kv`. -/
inductive Property where
  | servers
  | connectionFactory
  | keyPrefix
  | expiration
  | timeout
  | asyncGet
  | compression
  | sasl
  | username
  | password
  deriving DecidableEq

/-- The keys that an arm matches. -/
def Property.ofKey : String → Option Property
  | "org.mybatis.caches.memcached.servers" | "memcached.servers" => some .servers
  | "org.mybatis.caches.memcached.connectionfactory" | "memcached.connectionfactory" =>
    some .connectionFactory
  | "org.mybatis.caches.memcached.keyprefix" | "memcached.keyprefix" => some .keyPrefix
  | "org.mybatis.caches.memcached.expiration" | "memcached.expiration" => some .expiration
  | "org.mybatis.caches.memcached.timeout" | "memcached.timeout" => some .timeout
  | "org.mybatis.caches.memcached.asyncget" | "memcached.asyncget" => some .asyncGet
  | "org.mybatis.caches.memcached.compression" | "memcached.compression" => some .compression
  | "org.mybatis.caches.memcached.sasl" | "memcached.sasl" => some .sasl
  | "org.mybatis.caches.memcached.username" | "memcached.username" => some .username
  | "org.mybatis.caches.memcached.password" | "memcached.password" => some .password
  | _ => none

def connectionFactory (value : String) : Option ConnectionFactoryKind :=
  match toAsciiLowercase value with
  | "binary" => some .binary
  | "text" => some .text
  | "sasl" => some .sasl
  | _ => none

/-- `str::parse::<u64>`, as seconds. -/
def parseSecs (value : String) : Option Duration :=
  (parseUnsigned (2 ^ 64 - 1) value.toList).map .fromSecs

def isTrue (value : String) : Bool := eqIgnoreAsciiCase value.toList "true".toList

/-- What cannot be read leaves its field as it is. -/
def applyProperty (config : FullConfiguration) (value : String) : Property → FullConfiguration
  | .servers => { config with servers := parseAddressList value }
  | .connectionFactory => { config with
      connectionFactory := (connectionFactory value).getD config.connectionFactory }
  | .keyPrefix => { config with keyPrefix := value }
  | .expiration => { config with expiration := (parseSecs value).getD config.expiration }
  | .timeout => { config with operationTimeout := (parseSecs value).getD config.operationTimeout }
  | .asyncGet => { config with asyncGet := isTrue value }
  | .compression => { config with compression := isTrue value }
  | .sasl => { config with sasl := isTrue value }
  | .username => { config with username := some value }
  | .password => { config with password := some value }

def applyKv (config : FullConfiguration) (entry : String × String) : FullConfiguration :=
  (Property.ofKey entry.1).elim config (applyProperty config entry.2)

def parse (text : String) : FullConfiguration := (settings text).foldl applyKv {}

/-! ### Field by field -/

section
variable {α : Type}

/-- What a line writes to the field of a property. -/
def write (property : Property) (read : String → Option α) (entry : String × String) : Option α :=
  if Property.ofKey entry.1 = some property then read entry.2 else none

/-- The last value of a property that can be read, or else the default. -/
def final (entries : List (String × String)) (property : Property) (read : String → Option α)
    (default : α) : α :=
  (lastWrite (write property read) entries).getD default

end

/-- Every field is the last value of its own property. -/
def given (entries : List (String × String)) : FullConfiguration where
  servers := final entries .servers (some ∘ parseAddressList) [("127.0.0.1", 11211)]
  connectionFactory := final entries .connectionFactory connectionFactory .binary
  keyPrefix := final entries .keyPrefix some "rbatis:cache"
  expiration := final entries .expiration parseSecs (.fromSecs (60 * 60 * 24))
  operationTimeout := final entries .timeout parseSecs (.fromSecs 1)
  asyncGet := final entries .asyncGet (some ∘ isTrue) false
  compression := final entries .compression (some ∘ isTrue) false
  sasl := final entries .sasl (some ∘ isTrue) false
  username := final entries .username (some ∘ some) none
  password := final entries .password (some ∘ some) none

section
variable (config : FullConfiguration) (entry : String × String)

/-- A line writes the field of its own property only. -/
theorem applyKv_fields :
    (applyKv config entry).servers =
      (write .servers (some ∘ parseAddressList) entry).getD config.servers ∧
    (applyKv config entry).connectionFactory =
      (write .connectionFactory connectionFactory entry).getD config.connectionFactory ∧
    (applyKv config entry).keyPrefix = (write .keyPrefix some entry).getD config.keyPrefix ∧
    (applyKv config entry).expiration =
      (write .expiration parseSecs entry).getD config.expiration ∧
    (applyKv config entry).operationTimeout =
      (write .timeout parseSecs entry).getD config.operationTimeout ∧
    (applyKv config entry).asyncGet = (write .asyncGet (some ∘ isTrue) entry).getD config.asyncGet ∧
    (applyKv config entry).compression =
      (write .compression (some ∘ isTrue) entry).getD config.compression ∧
    (applyKv config entry).sasl = (write .sasl (some ∘ isTrue) entry).getD config.sasl ∧
    (applyKv config entry).username =
      (write .username (some ∘ some) entry).getD config.username ∧
    (applyKv config entry).password =
      (write .password (some ∘ some) entry).getD config.password := by
  unfold applyKv write
  cases Property.ofKey entry.1 with
  | none => exact ⟨rfl, rfl, rfl, rfl, rfl, rfl, rfl, rfl, rfl, rfl⟩
  | some property =>
    cases property <;> exact ⟨rfl, rfl, rfl, rfl, rfl, rfl, rfl, rfl, rfl, rfl⟩

end

private theorem foldl_eq_given (entries : List (String × String)) :
    entries.foldl applyKv {} = given entries := by
  ext1
  case servers => exact foldl_lastWrite (fun c e => (applyKv_fields c e).1) _ entries
  case connectionFactory => exact foldl_lastWrite (fun c e => (applyKv_fields c e).2.1) _ entries
  case keyPrefix =>
    have kept (c : FullConfiguration) (e : String × String) := (applyKv_fields c e).2.2.1
    exact @foldl_lastWrite _ _ _ _ (fun c : FullConfiguration => c.keyPrefix) _ kept _ entries
  case expiration => exact foldl_lastWrite (fun c e => (applyKv_fields c e).2.2.2.1) _ entries
  case operationTimeout =>
    exact foldl_lastWrite (fun c e => (applyKv_fields c e).2.2.2.2.1) _ entries
  case asyncGet => exact foldl_lastWrite (fun c e => (applyKv_fields c e).2.2.2.2.2.1) _ entries
  case compression =>
    exact foldl_lastWrite (fun c e => (applyKv_fields c e).2.2.2.2.2.2.1) _ entries
  case sasl => exact foldl_lastWrite (fun c e => (applyKv_fields c e).2.2.2.2.2.2.2.1) _ entries
  case username =>
    exact foldl_lastWrite (fun c e => (applyKv_fields c e).2.2.2.2.2.2.2.2.1) _ entries
  case password =>
    exact foldl_lastWrite (fun c e => (applyKv_fields c e).2.2.2.2.2.2.2.2.2) _ entries

/-- What is given does not depend on the order of lines of different properties, nor on other lines. -/
theorem given_eq_of_sameAt {l m : List (String × String)}
    (h : ∀ property, SameAt (fun entry => Property.ofKey entry.1) (some property) l m) :
    given l = given m := by
  have same {α : Type} (property : Property) (read : String → Option α) (default : α) :
      final l property read default = final m property read default :=
    congrArg (Option.getD · default)
      ((h property).lastWrite_eq fun entry other => if_neg other)
  simp only [given, same]

/-- Every field is the last value of its property that can be read, under the long key or the short one,
or else the default; the order of the lines matters only among those of one property, and lines of no
property do not matter. -/
theorem parse_field_by_field (text : String) : parse text = given (settings text) ∧
    ∀ other, (∀ property, SameAt (fun entry => Property.ofKey entry.1) (some property) (settings text)
        (settings other)) → parse text = parse other := by
  refine ⟨foldl_eq_given _, fun other same => ?_⟩
  calc parse text
      = given (settings text) := foldl_eq_given _
    _ = given (settings other) := given_eq_of_sameAt same
    _ = parse other := (foldl_eq_given _).symm

/-- A user name and a timeout under the long key, in either order, with a line of no property. -/
theorem user_and_timeout_in_either_order :
    parse "memcached.username=u\norg.mybatis.caches.memcached.timeout=5" =
      parse "org.mybatis.caches.memcached.timeout=5\nmemcached.colour=red\nmemcached.username=u" := by
  have one : settings "memcached.username=u\norg.mybatis.caches.memcached.timeout=5" =
    [("memcached.username", "u"), ("org.mybatis.caches.memcached.timeout", "5")] := by decide
  have two : settings
      "org.mybatis.caches.memcached.timeout=5\nmemcached.colour=red\nmemcached.username=u" =
    [("org.mybatis.caches.memcached.timeout", "5"), ("memcached.colour", "red"),
      ("memcached.username", "u")] := by decide
  refine (parse_field_by_field "memcached.username=u\norg.mybatis.caches.memcached.timeout=5").2
    "org.mybatis.caches.memcached.timeout=5\nmemcached.colour=red\nmemcached.username=u" ?_
  rw [one, two]
  intro property
  cases property <;> decide

/-! ### The text of a configuration -/

/-- The short key. -/
def Property.key : Property → String
  | .servers => "memcached.servers"
  | .connectionFactory => "memcached.connectionfactory"
  | .keyPrefix => "memcached.keyprefix"
  | .expiration => "memcached.expiration"
  | .timeout => "memcached.timeout"
  | .asyncGet => "memcached.asyncget"
  | .compression => "memcached.compression"
  | .sasl => "memcached.sasl"
  | .username => "memcached.username"
  | .password => "memcached.password"

def connectionFactoryName : ConnectionFactoryKind → String
  | .binary => "binary"
  | .text => "text"
  | .sasl => "sasl"

/-- A setting for every field that has a value. -/
def entries (config : FullConfiguration) : List (Property × String) :=
  [(.servers, AddressList.displaySpaced config.servers),
    (.connectionFactory, connectionFactoryName config.connectionFactory),
    (.keyPrefix, config.keyPrefix),
    (.expiration, toString config.expiration.asSecs),
    (.timeout, toString config.operationTimeout.asSecs),
    (.asyncGet, toString config.asyncGet),
    (.compression, toString config.compression),
    (.sasl, toString config.sasl)] ++
  (config.username.map (Property.username, ·)).toList ++
  (config.password.map (Property.password, ·)).toList

def properties (config : FullConfiguration) : String :=
  print ((entries config).map fun entry => (entry.1.key, entry.2))

theorem Property.ofKey_key (property : Property) : Property.ofKey property.key = some property := by
  cases property <;> rfl

theorem Property.key_fits (property : Property) : IsValue property.key ∧
    '=' ∉ property.key.toList ∧ property.key.toList.head? ≠ some '#' := by
  cases property <;> decide

theorem Property.isSetting (property : Property) {value : String} (h : IsValue value) :
    IsSetting (property.key, value) :=
  ⟨property.key_fits.1, property.key_fits.2.1, property.key_fits.2.2, h⟩

private theorem applyKv_key (config : FullConfiguration) (property : Property) (value : String) :
    applyKv config (property.key, value) = applyProperty config value property := by
  simp only [applyKv, Property.ofKey_key, Option.elim_some]

/-! ### Hosts -/

/-- A host that either parser can read. -/
def IsHost (host : String) : Prop := ∀ c ∈ host.toList, isWhitespace c = false ∧ c ≠ ':'

instance (host : String) : Decidable (IsHost host) := List.decidableBAll _ host.toList

section
variable {list : AddressList} {address : String × UInt16}

private theorem plain_displayAddress (host : IsHost address.1) {c : Char}
    (hc : c ∈ (AddressList.displayAddress address).toList) : isWhitespace c = false := by
  rw [AddressList.toList_displayAddress, List.mem_append, List.mem_cons] at hc
  rcases hc with inside | rfl | port
  · exact (host c inside).1
  · rfl
  · exact not_whitespace_of_digit (Nat.isDigit_of_mem_toDigits (by decide) (Nat.le_refl 10) port)

private theorem parseAddress_of_isHost (host : IsHost address.1) :
    AddressList.parseAddress (AddressList.displayAddress address).toList = some address := by
  have colon : ':' ∉ address.1.toList := fun h => (host ':' h).2 rfl
  have fits : address.2.toNat ≤ 65535 := Nat.le_of_lt_succ address.2.toNat_lt
  rw [AddressList.toList_displayAddress, AddressList.parseAddress, splitOnce_append colon]
  simp only [Option.bind_eq_bind, Option.bind_some, parseUnsigned_toDigits fits]
  rw [String.ofList_toList, UInt16.ofNat_toNat]
  rfl

private theorem isHost_of_parseAddress {token : List Char} (plain : ∀ c ∈ token, isWhitespace c = false)
    (h : AddressList.parseAddress token = some address) : IsHost address.1 := by
  obtain ⟨⟨host, text⟩, split, h⟩ := Option.bind_eq_some_iff.mp h
  obtain ⟨port, -, h⟩ := Option.bind_eq_some_iff.mp h
  obtain rfl := Option.some_inj.mp h
  obtain ⟨whole, absent⟩ := splitOnce_eq_some split
  intro c hc
  rw [String.toList_ofList] at hc
  refine ⟨plain c (by rw [whole]; exact List.mem_append_left _ hc), ?_⟩
  rintro rfl
  exact absent hc

private theorem isHost_of_mem_parseAddressList {value : String} (h : address ∈ parseAddressList value) :
    IsHost address.1 := by
  obtain ⟨token, htoken, parsed⟩ := List.mem_filterMap.mp h
  exact isHost_of_parseAddress (plain_of_mem_splitWhitespace htoken).2 parsed

private theorem tokens_displaySpaced (hosts : ∀ address ∈ list, IsHost address.1) {token : List Char}
    (h : token ∈ (list.map AddressList.displayAddress).map String.toList) :
    token ≠ [] ∧ ∀ c ∈ token, isWhitespace c = false := by
  obtain ⟨s, hs, rfl⟩ := List.mem_map.mp h
  obtain ⟨address, ha, rfl⟩ := List.mem_map.mp hs
  exact ⟨AddressList.displayAddress_ne_nil address, fun c => plain_displayAddress (hosts address ha)⟩

private theorem toList_displaySpaced (list : AddressList) : (AddressList.displaySpaced list).toList =
    [' '].intercalate ((list.map AddressList.displayAddress).map String.toList) :=
  String.toList_intercalate

private theorem parseAddressList_of_isHost (hosts : ∀ address ∈ list, IsHost address.1) :
    parseAddressList (AddressList.displaySpaced list) = list := by
  rw [parseAddressList, toList_displaySpaced,
    splitWhitespace_intercalate fun token => tokens_displaySpaced hosts]
  exact AddressList.filterMap_displayAddress fun address ha => parseAddress_of_isHost (hosts address ha)

private theorem isValue_displaySpaced (hosts : ∀ address ∈ list, IsHost address.1) :
    IsValue (AddressList.displaySpaced list) := by
  have plain : ∀ token ∈ (list.map AddressList.displayAddress).map String.toList,
      token ≠ [] ∧ ∀ c ∈ token, isWhitespace c = false := fun _ => tokens_displaySpaced hosts
  rw [IsValue, toList_displaySpaced]
  refine ⟨trimmed_intercalate_space plain, fun newline => ?_⟩
  exact absurd (mem_intercalate_space plain newline) (by decide)

end

/-! ### What can be configured -/

/-- A configuration that some text gives: values that fit on a line, and durations of whole seconds. -/
structure Readable (config : FullConfiguration) : Prop where
  servers : ∀ address ∈ config.servers, IsHost address.1
  keyPrefix : IsValue config.keyPrefix
  expiration : ∃ secs < 2 ^ 64, config.expiration = .fromSecs secs
  operationTimeout : ∃ secs < 2 ^ 64, config.operationTimeout = .fromSecs secs
  username : ∀ value ∈ config.username, IsValue value
  password : ∀ value ∈ config.password, IsValue value

section
variable {config : FullConfiguration}

private theorem parseSecs_toString {secs : Nat} (fits : secs < 2 ^ 64) :
    parseSecs (toString (Duration.fromSecs secs).asSecs) = some (.fromSecs secs) := by
  have whole : (Duration.fromSecs secs).asSecs = secs := Nat.mul_div_cancel secs (by decide)
  have digits : (toString secs).toList = Nat.toDigits 10 secs := Nat.toList_repr
  rw [whole, parseSecs, digits, parseUnsigned_toDigits (Nat.le_sub_one_of_lt fits)]
  rfl

private theorem fromSecs_of_parseSecs {value : String} {d : Duration} (h : parseSecs value = some d) :
    ∃ secs < 2 ^ 64, d = .fromSecs secs := by
  obtain ⟨secs, parsed, rfl⟩ := Option.map_eq_some_iff.mp h
  exact ⟨secs, Nat.lt_of_le_sub_one (by decide) (le_of_parseUnsigned parsed), rfl⟩

private theorem isTrue_toString (b : Bool) : isTrue (toString b) = b := by
  cases b <;> decide

private theorem connectionFactory_name (kind : ConnectionFactoryKind) :
    connectionFactory (connectionFactoryName kind) = some kind := by
  cases kind <;> decide

private theorem isValue_connectionFactoryName (kind : ConnectionFactoryKind) :
    IsValue (connectionFactoryName kind) := by
  cases kind <;> decide

private theorem isSetting_of_mem_entries (readable : Readable config) {entry : Property × String}
    (h : entry ∈ entries config) : IsSetting (entry.1.key, entry.2) := by
  apply entry.1.isSetting
  simp only [entries, List.mem_append, List.mem_cons, List.not_mem_nil, or_false] at h
  rcases h with (((rfl | rfl | rfl | rfl | rfl | rfl | rfl | rfl) | username) | password)
  · exact isValue_displaySpaced readable.servers
  · exact isValue_connectionFactoryName _
  · exact readable.keyPrefix
  · exact isValue_nat _
  · exact isValue_nat _
  · exact isValue_bool _
  · exact isValue_bool _
  · exact isValue_bool _
  · obtain ⟨value, hvalue, rfl⟩ := Option.map_eq_some_iff.mp (Option.mem_toList.mp username)
    exact readable.username value hvalue
  · obtain ⟨value, hvalue, rfl⟩ := Option.map_eq_some_iff.mp (Option.mem_toList.mp password)
    exact readable.password value hvalue

/-- What was written is read. -/
theorem parse_properties (readable : Readable config) : parse (properties config) = config := by
  have read : settings (properties config) =
      (entries config).map fun entry => (entry.1.key, entry.2) := by
    apply settings_print
    intro entry h
    obtain ⟨entry, hentry, rfl⟩ := List.mem_map.mp h
    exact isSetting_of_mem_entries readable hentry
  obtain ⟨expiration, small, hexpiration⟩ := readable.expiration
  obtain ⟨timeout, small', htimeout⟩ := readable.operationTimeout
  have fields : (entries { config with username := none, password := none }).foldl
      (fun c entry => applyProperty c entry.2 entry.1) {} =
        { config with username := none, password := none } := by
    simp only [entries, Option.map_none, Option.toList_none, List.append_nil, List.foldl_cons,
      List.foldl_nil, applyProperty, parseAddressList_of_isHost readable.servers,
      connectionFactory_name, hexpiration, htimeout, parseSecs_toString small,
      parseSecs_toString small', isTrue_toString, Option.getD_some]
  rw [parse, read, List.foldl_map]
  simp only [applyKv_key]
  rw [entries, List.append_assoc, List.foldl_append]
  simp only [entries, Option.map_none, Option.toList_none, List.append_nil] at fields
  rw [fields]
  cases hu : config.username <;> cases hp : config.password <;> ext1 <;>
    simp [applyProperty, hu, hp]

end

private theorem readable_applyKv {config : FullConfiguration} {entry : String × String}
    (readable : Readable config) (value : IsValue entry.2) : Readable (applyKv config entry) := by
  unfold applyKv
  cases Property.ofKey entry.1 with
  | none => exact readable
  | some property =>
    cases property with
    | servers => exact { readable with servers := fun _ => isHost_of_mem_parseAddressList }
    | connectionFactory => exact { readable with }
    | keyPrefix => exact { readable with keyPrefix := value }
    | expiration =>
      refine { readable with expiration := ?_ }
      change ∃ secs < 2 ^ 64, (parseSecs entry.2).getD config.expiration = .fromSecs secs
      cases parsed : parseSecs entry.2 with
      | none => exact readable.expiration
      | some d => exact fromSecs_of_parseSecs parsed
    | timeout =>
      refine { readable with operationTimeout := ?_ }
      change ∃ secs < 2 ^ 64, (parseSecs entry.2).getD config.operationTimeout = .fromSecs secs
      cases parsed : parseSecs entry.2 with
      | none => exact readable.operationTimeout
      | some d => exact fromSecs_of_parseSecs parsed
    | asyncGet => exact { readable with }
    | compression => exact { readable with }
    | sasl => exact { readable with }
    | username => exact { readable with username := fun _ h => Option.some_inj.mp h ▸ value }
    | password => exact { readable with password := fun _ h => Option.some_inj.mp h ▸ value }

private theorem readable_default : Readable {} where
  servers := by
    rintro address hmem
    obtain rfl := List.mem_singleton.mp hmem
    exact (by decide : IsHost "127.0.0.1")
  keyPrefix := (by decide : IsValue "rbatis:cache")
  expiration := ⟨_, by decide, rfl⟩
  operationTimeout := ⟨_, by decide, rfl⟩
  username _ := nofun
  password _ := nofun

private theorem readable_parse (text : String) : Readable (parse text) :=
  foldl_settings readable_default (fun _ _ readable h => readable_applyKv readable h.value) text

/-- What is read from a text is read again from the text that it is written to, and the configurations
that can be read are the readable ones. -/
theorem configurations_read_back : (∀ text, parse (properties (parse text)) = parse text) ∧
    ∀ config, (∃ text, parse text = config) ↔ Readable config := by
  refine ⟨fun text => parse_properties (readable_parse text), fun config => ⟨?_, fun readable => ?_⟩⟩
  · rintro ⟨text, rfl⟩
    exact readable_parse text
  · exact ⟨properties config, parse_properties readable⟩

end MemcachedConfigurationBuilder
end RbatisCache.Memcached
