import RbatisCache.Redis.FieldTable
import RbatisCache.Redis.Properties

/-! Which configurations of the Redis backend a properties text can give. The host line writes all that is
behind the scheme, so every one of them can be written to a text again; but none has another scheme,
another operation timeout than the default, or a timeout that is no number of milliseconds. -/
namespace RbatisCache.Redis
open Text

namespace RedisConfigurationBuilder

/-- A configuration that some text gives. -/
structure Readable (config : RedisConfig) : Prop where
  url : ∃ target, IsValue target ∧ config.url = "redis://" ++ target
  password : ∀ value ∈ config.password, IsValue value
  clientName : ∀ value ∈ config.clientName, IsValue value
  connectionTimeout : ∃ millis < 2 ^ 64, config.connectionTimeout = .fromMillis millis
  operationTimeout : config.operationTimeout = .fromSecs 2
  serializer : IsValue config.serializer

/-- A setting for every field that has a value, but for the operation timeout. -/
def entries (config : RedisConfig) : List (String × String) :=
  [("redis.host", String.ofList (config.url.toList.drop 8)),
    ("redis.database", toString config.database),
    ("redis.connectionTimeout", toString config.connectionTimeout.asMillis),
    ("redis.ssl", toString config.ssl),
    ("redis.serializer", config.serializer)] ++
  (config.password.map ("redis.password", ·)).toList ++
  (config.clientName.map ("redis.clientName", ·)).toList

def properties (config : RedisConfig) : String := print (entries config)

variable {config : RedisConfig} {entry : String × String}

private theorem parseMillis_toString {millis : Nat} (fits : millis < 2 ^ 64) :
    parseMillis (toString (Duration.fromMillis millis).asMillis) = some (.fromMillis millis) := by
  have whole : (Duration.fromMillis millis).asMillis = millis := Nat.mul_div_cancel millis (by decide)
  have digits : (toString millis).toList = Nat.toDigits 10 millis := Nat.toList_repr
  rw [whole, parseMillis, digits, parseUnsigned_toDigits (Nat.le_sub_one_of_lt fits)]
  rfl

private theorem parseU8_toString (database : UInt8) : parseU8 (toString database) = some database := by
  have digits : (toString database).toList = Nat.toDigits 10 database.toNat := Nat.toList_repr
  rw [parseU8, digits, parseUnsigned_toDigits (Nat.le_of_lt_succ database.toNat_lt)]
  exact congrArg some UInt8.ofNat_toNat

private theorem target_of_url (target : String) :
    String.ofList (("redis://" ++ target).toList.drop 8) = target := by
  rw [String.toList_append]
  exact String.ofList_toList

private theorem isSetting_of_mem_entries (readable : Readable config) (h : entry ∈ entries config) :
    IsSetting entry := by
  have plain (key : String) (h : IsValue key ∧ '=' ∉ key.toList ∧ key.toList.head? ≠ some '#')
      {value : String} (hvalue : IsValue value) : IsSetting (key, value) :=
    ⟨h.1, h.2.1, h.2.2, hvalue⟩
  simp only [entries, List.mem_append, List.mem_cons, List.not_mem_nil, or_false] at h
  rcases h with (((rfl | rfl | rfl | rfl | rfl) | password) | clientName)
  · obtain ⟨target, htarget, hurl⟩ := readable.url
    refine plain "redis.host" (by decide) ?_
    rwa [hurl, target_of_url]
  · exact plain "redis.database" (by decide) (isValue_nat _)
  · exact plain "redis.connectionTimeout" (by decide) (isValue_nat _)
  · exact plain "redis.ssl" (by decide) (isValue_bool _)
  · exact plain "redis.serializer" (by decide) readable.serializer
  · obtain ⟨value, hvalue, rfl⟩ := Option.map_eq_some_iff.mp (Option.mem_toList.mp password)
    exact plain "redis.password" (by decide) (readable.password value hvalue)
  · obtain ⟨value, hvalue, rfl⟩ := Option.map_eq_some_iff.mp (Option.mem_toList.mp clientName)
    exact plain "redis.clientName" (by decide) (readable.clientName value hvalue)

/-- What was written is read. -/
theorem parse_properties (readable : Readable config) : parse (properties config) = config := by
  have read : settings (properties config) = entries config :=
    settings_print fun entry => isSetting_of_mem_entries readable
  have ssl : eqIgnoreAsciiCase (toString config.ssl).toList "true".toList = config.ssl := by
    cases config.ssl <;> decide
  obtain ⟨target, -, hurl⟩ := readable.url
  obtain ⟨millis, small, hmillis⟩ := readable.connectionTimeout
  have host : "redis://" ++ String.ofList (config.url.toList.drop 8) = config.url := by
    rw [hurl, target_of_url]
  have timeout : (parseMillis (toString config.connectionTimeout.asMillis)).getD (.fromSecs 2) =
      config.connectionTimeout := by
    rw [hmillis, parseMillis_toString small]
    rfl
  have fields (password clientName : Option String) :
      (entries { config with password := password, clientName := clientName }).foldl applyKv
        RedisConfig.standalone = { config with password := password, clientName := clientName } := by
    have set : (entries { config with password := password, clientName := clientName }).foldl applyKv
        RedisConfig.standalone =
      { url := "redis://" ++ String.ofList (config.url.toList.drop 8)
        password := password
        database := (parseU8 (toString config.database)).getD 0
        clientName := clientName
        connectionTimeout :=
          (parseMillis (toString config.connectionTimeout.asMillis)).getD (.fromSecs 2)
        operationTimeout := .fromSecs 2
        ssl := eqIgnoreAsciiCase (toString config.ssl).toList "true".toList
        serializer := config.serializer } := by
      cases password <;> cases clientName <;> rfl
    rw [set, host, timeout, ssl, parseU8_toString, Option.getD_some, ← readable.operationTimeout]
  rw [parse, read]
  exact fields config.password config.clientName

/-- Behind the scheme there is always text that fits on a line. -/
theorem isValue_replacePort {url value target : String} (hurl : url = "redis://" ++ target)
    (htarget : IsValue target) (hvalue : IsValue value) :
    ∃ target, IsValue target ∧ replacePort url value = "redis://" ++ target := by
  have whole : url.toList = "redis://".toList ++ target.toList := by
    rw [hurl, String.toList_append]
  let path := target.toList.dropWhile fun c => c != '/'
  have trimmed : Trimmed path := by
    constructor
    · intro c hc
      have slash := List.head?_dropWhile_not (fun c => c != '/') target.toList
      rw [Option.mem_def.mp hc] at slash
      obtain rfl : c = '/' := by simpa using slash
      rfl
    · obtain ⟨front, split⟩ := List.dropWhile_suffix (fun c => c != '/') (l := target.toList)
      intro c hc
      refine htarget.1.2 c ?_
      rw [← split, List.getLast?_append_of_ne_nil _ (List.ne_nil_of_mem (List.mem_of_mem_getLast? hc))]
      exact hc
  refine ⟨String.ofList ("127.0.0.1".toList ++ ':' :: value.toList ++ path), ?_, ?_⟩
  · rw [IsValue, String.toList_ofList]
    constructor
    · exact ((by decide : Trimmed "127.0.0.1:".toList).append hvalue.1).append trimmed
    · rw [List.mem_append, List.mem_append, List.mem_cons, not_or, not_or, not_or]
      exact ⟨⟨by decide, by decide, hvalue.2⟩, fun h => htarget.2 ((List.dropWhile_sublist _).subset h)⟩
  · rw [← String.toList_inj, toList_replacePort whole, String.toList_append, List.append_assoc]
    exact congrArg ("redis://".toList ++ ·) String.toList_ofList.symm

private theorem fromMillis_of_getD {value : String} (readable : Readable config) :
    ∃ millis < 2 ^ 64, (parseMillis value).getD config.connectionTimeout = .fromMillis millis := by
  cases parsed : parseMillis value with
  | none => exact readable.connectionTimeout
  | some d =>
    obtain ⟨millis, read, rfl⟩ := Option.map_eq_some_iff.mp parsed
    exact ⟨millis, Nat.lt_of_le_sub_one (by decide) (le_of_parseUnsigned read), rfl⟩

private theorem readable_applyKv (readable : Readable config) (value : IsValue entry.2) :
    Readable (applyKv config entry) := by
  unfold applyKv
  split
  case h_1 => exact { readable with url := ⟨_, value, rfl⟩ }
  case h_2 =>
    obtain ⟨target, htarget, hurl⟩ := readable.url
    exact { readable with url := isValue_replacePort hurl htarget value }
  case h_3 => exact { readable with password := fun _ h => Option.some_inj.mp h ▸ value }
  case h_4 => exact { readable with }
  case h_5 => exact { readable with connectionTimeout := fromMillis_of_getD readable }
  case h_6 => exact { readable with connectionTimeout := fromMillis_of_getD readable }
  case h_7 => exact { readable with clientName := fun _ h => Option.some_inj.mp h ▸ value }
  case h_8 => exact { readable with }
  case h_9 => exact { readable with serializer := value }
  case h_10 => exact readable

private theorem readable_standalone : Readable .standalone where
  url := ⟨"127.0.0.1:6379/0", by decide, by decide⟩
  password _ := nofun
  clientName _ := nofun
  connectionTimeout := ⟨2000, by decide, rfl⟩
  operationTimeout := rfl
  serializer := (by decide : IsValue "jdk")

private theorem readable_parse (text : String) : Readable (parse text) :=
  foldl_settings readable_standalone (fun _ _ readable h => readable_applyKv readable h.value) text

/-- What is read from a text is read again from the text that it is written to, and the configurations
that can be read are the readable ones. -/
theorem redis_configurations_read_back : (∀ text, parse (properties (parse text)) = parse text) ∧
    ∀ config, (∃ text, parse text = config) ↔ Readable config := by
  refine ⟨fun text => parse_properties (readable_parse text), fun config => ⟨?_, fun readable => ?_⟩⟩
  · rintro ⟨text, rfl⟩
    exact readable_parse text
  · exact ⟨properties config, parse_properties readable⟩

end RedisConfigurationBuilder
end RbatisCache.Redis
