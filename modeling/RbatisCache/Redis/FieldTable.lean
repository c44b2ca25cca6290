import RbatisCache.Collections.LastWrite
import RbatisCache.Redis.ConfigurationBuilder

/-! What a properties text says about each field of the field table of `RedisConfig`, and when the
configuration that is read from it says the same. -/
namespace RbatisCache.Redis
open Text RedisConfigurationBuilder

@[ext] structure FieldTable where
  host : String
  port : String
  connectionTimeout : Duration
  soTimeout : Duration
  password : Option String
  database : UInt8
  clientName : Option String
  serializer : String
  ssl : Bool
  deriving DecidableEq

/-- The host and the port text of the URL. -/
def endpoint (url : String) : List Char × Option (List Char) :=
  hostPort (authority (url.toList.drop (schemeEnd url.toList)))

def urlHost (url : String) : String := String.ofList (endpoint url).1

def urlPort (url : String) : String := String.ofList ((endpoint url).2.getD "6379".toList)

def RedisConfig.fields (config : RedisConfig) : FieldTable where
  host := urlHost config.url
  port := urlPort config.url
  connectionTimeout := config.connectionTimeout
  soTimeout := config.operationTimeout
  password := config.password
  database := config.database
  clientName := config.clientName
  serializer := config.serializer
  ssl := config.ssl

/-- What a line writes to the field of a key. -/
def write {α : Type} (key : String) (read : String → Option α) (entry : String × String) :
    Option α :=
  if entry.1 = key then read entry.2 else none

namespace FieldTable

/-- The defaults. -/
def standalone : FieldTable := RedisConfig.standalone.fields

/-- Every field is the last value of its own key that can be read. -/
def given (entries : List (String × String)) : FieldTable where
  host := (lastWrite (write "redis.host" some) entries).getD standalone.host
  port := (lastWrite (write "redis.port" some) entries).getD standalone.port
  connectionTimeout :=
    (lastWrite (write "redis.connectionTimeout" parseMillis) entries).getD standalone.connectionTimeout
  soTimeout := (lastWrite (write "redis.soTimeout" parseMillis) entries).getD standalone.soTimeout
  password :=
    (lastWrite (write "redis.password" fun v => some (some v)) entries).getD standalone.password
  database := (lastWrite (write "redis.database" parseU8) entries).getD standalone.database
  clientName := (lastWrite (write "redis.clientName" fun v => some (some v)) entries).getD
    standalone.clientName
  serializer := (lastWrite (write "redis.serializer" some) entries).getD standalone.serializer
  ssl := (lastWrite (write "redis.ssl" fun v => some (eqIgnoreAsciiCase v.toList "true".toList))
    entries).getD standalone.ssl

/-- What is given does not depend on the order of lines of different keys. -/
theorem given_eq_of_sameByKey {l m : List (String × String)} (h : SameByKey Prod.fst l m) :
    given l = given m := by
  have same : ∀ {α : Type} (key : String) (read : String → Option α),
      lastWrite (write key read) l = lastWrite (write key read) m := fun key read =>
    (h key).lastWrite_eq fun entry other => if_neg other
  simp only [given, same]

end FieldTable

/-! ### What one line does -/

/-- A line that writes the host or the port of the URL. -/
inductive Endpoint where
  | host (name : String)
  | port (number : String)

def Endpoint.host? : Endpoint → Option String
  | .host name => some name
  | .port _ => none

def Endpoint.port? : Endpoint → Option String
  | .host _ => none
  | .port number => some number

def endpointWrite (entry : String × String) : Option Endpoint :=
  if entry.1 = "redis.host" then some (.host entry.2)
  else if entry.1 = "redis.port" then some (.port entry.2)
  else none

/-- A line that writes one of the timeouts. -/
inductive Timeout where
  | connection (duration : Duration)
  | socket (duration : Duration)

def Timeout.duration : Timeout → Duration
  | .connection d | .socket d => d

def Timeout.connection? : Timeout → Option Duration
  | .connection d => some d
  | .socket _ => none

def Timeout.socket? : Timeout → Option Duration
  | .connection _ => none
  | .socket d => some d

def timeoutWrite (entry : String × String) : Option Timeout :=
  if entry.1 = "redis.connectionTimeout" then (parseMillis entry.2).map .connection
  else if entry.1 = "redis.soTimeout" then (parseMillis entry.2).map .socket
  else none

section
variable (config : RedisConfig) (entry : String × String)

private theorem applyKv_url : (applyKv config entry).url = (endpointWrite entry).elim config.url
    fun
    | .host name => "redis://" ++ name
    | .port number => replacePort config.url number := by
  unfold applyKv endpointWrite
  split <;> simp_all

/-- Both timeouts are written to the connection timeout. -/
theorem applyKv_timeouts :
    (applyKv config entry).connectionTimeout =
      ((timeoutWrite entry).map Timeout.duration).getD config.connectionTimeout ∧
    (applyKv config entry).operationTimeout = config.operationTimeout := by
  unfold applyKv timeoutWrite
  split <;> simp_all [Function.comp_def, Timeout.duration]

/-- The other fields are each written by the lines of their own keys. -/
theorem applyKv_fields :
    (applyKv config entry).password =
      (write "redis.password" (fun v => some (some v)) entry).getD config.password ∧
    (applyKv config entry).database =
      (write "redis.database" parseU8 entry).getD config.database ∧
    (applyKv config entry).clientName =
      (write "redis.clientName" (fun v => some (some v)) entry).getD config.clientName ∧
    (applyKv config entry).serializer =
      (write "redis.serializer" some entry).getD config.serializer ∧
    (applyKv config entry).ssl = (write "redis.ssl"
      (fun v => some (eqIgnoreAsciiCase v.toList "true".toList)) entry).getD config.ssl := by
  unfold applyKv write
  split <;> simp_all

end

/-! ### Where the URL points to -/

section
variable {url : String} {rest : List Char} {entries : List (String × String)}

private theorem schemeEnd_redis (rest : List Char) : schemeEnd ("redis://".toList ++ rest) = 8 := rfl

private theorem endpoint_redis (h : url.toList = "redis://".toList ++ rest) :
    endpoint url = hostPort (authority rest) := by
  rw [endpoint, h, schemeEnd_redis]
  rfl

/-- Behind the scheme everything up to the first slash is replaced. -/
theorem toList_replacePort (h : url.toList = "redis://".toList ++ rest) (value : String) :
    (replacePort url value).toList =
      "redis://".toList ++ ("127.0.0.1".toList ++ ':' :: value.toList) ++
        rest.dropWhile fun c => c != '/' := by
  have colon : ':' ∈ url.toList := by
    rw [h]
    exact List.mem_append_left _ (by decide)
  have stop : url.toList.drop ((find ['/'] rest).elim url.toList.length (8 + ·)) =
      rest.dropWhile fun c => c != '/' := by
    rw [← drop_find, h]
    cases find ['/'] rest with
    | none => simp
    | some i =>
      change List.drop (8 + i) _ = List.drop i rest
      rw [← List.drop_drop]
      rfl
  have start : url.toList.drop 8 = rest := by
    rw [h]
    rfl
  rw [replacePort, if_pos colon]
  simp only [h, schemeEnd_redis] at stop start ⊢
  rw [start, stop, String.toList_ofList, String.toList_append, List.append_assoc]
  rfl

/-- What the lines so far have made of the URL. -/
def Located : Option Endpoint → String → Prop
  | none, url => url = RedisConfig.standalone.url
  | some (.host name), url => url.toList = "redis://".toList ++ name.toList
  | some (.port number), url => ∃ path : List Char, (∀ c ∈ path.head?, endsAuthority c = true) ∧
      url.toList = "redis://".toList ++ ("127.0.0.1".toList ++ ':' :: number.toList ++ path)

theorem Located.redis {last : Option Endpoint} (h : Located last url) :
    ∃ rest, url.toList = "redis://".toList ++ rest := by
  cases last with
  | none =>
    obtain rfl := h
    exact ⟨"127.0.0.1:6379/0".toList, by decide⟩
  | some written =>
    cases written with
    | host name => exact ⟨_, h⟩
    | port number =>
      obtain ⟨path, -, h⟩ := h
      exact ⟨_, h⟩

theorem Located.applyKv {config : RedisConfig} {last : Option Endpoint}
    (h : Located last config.url) (entry : String × String) :
    Located ((endpointWrite entry).or last) (applyKv config entry).url := by
  rw [applyKv_url]
  cases endpointWrite entry with
  | none => exact h
  | some written =>
    cases written with
    | host name => exact String.toList_append
    | port number =>
      obtain ⟨rest, hrest⟩ := h.redis
      refine ⟨rest.dropWhile fun c => c != '/', ?_, ?_⟩
      · intro c hc
        have slash := List.head?_dropWhile_not (fun c => c != '/') rest
        rw [Option.mem_def.mp hc] at slash
        have : c = '/' := by simpa using slash
        rw [this]
        rfl
      · rw [List.append_assoc]
        exact toList_replacePort hrest number

private theorem located_parse (entries : List (String × String)) :
    Located (lastWrite endpointWrite entries) (entries.foldl applyKv .standalone).url := by
  induction entries using List.reverseRecOn with
  | nil => rfl
  | append_singleton entries entry ih =>
    rw [lastWrite_concat, List.foldl_append]
    exact ih.applyKv entry

/-- The last line for the host or the port says where the other one is, too: a host is not
written with a port but the default one, nor a port with a host but the default one. -/
def EndpointFollows (entries : List (String × String)) : Prop :=
  match lastWrite endpointWrite entries with
  | none => True
  | some (.host name) =>
    BareHost name.toList ∧ (FieldTable.given entries).port = FieldTable.standalone.port
  | some (.port number) =>
    Undelimited number.toList ∧ (FieldTable.given entries).host = FieldTable.standalone.host

/-- No line gives a socket timeout but the default one, and none after the last connection timeout
unless that is the default one as well. -/
def TimeoutsFollow (entries : List (String × String)) : Prop :=
  (FieldTable.given entries).soTimeout = FieldTable.standalone.soTimeout ∧
  match lastWrite timeoutWrite entries with
  | some (.socket _) => (FieldTable.given entries).connectionTimeout =
      FieldTable.standalone.connectionTimeout
  | _ => True

private theorem write_host_eq :
    write "redis.host" some = fun entry => (endpointWrite entry).bind Endpoint.host? := by
  funext entry
  unfold write endpointWrite
  split
  · rfl
  · split <;> rfl

private theorem write_port_eq :
    write "redis.port" some = fun entry => (endpointWrite entry).bind Endpoint.port? := by
  funext entry
  unfold write endpointWrite
  split
  · next port =>
    rw [port]
    rfl
  · split <;> rfl

private theorem write_connectionTimeout_eq : write "redis.connectionTimeout" parseMillis =
    fun entry => (timeoutWrite entry).bind Timeout.connection? := by
  funext entry
  unfold write timeoutWrite
  split
  · cases parseMillis entry.2 <;> rfl
  · split
    · cases parseMillis entry.2 <;> rfl
    · rfl

private theorem write_soTimeout_eq : write "redis.soTimeout" parseMillis =
    fun entry => (timeoutWrite entry).bind Timeout.socket? := by
  funext entry
  unfold write timeoutWrite
  split
  · next socket =>
    rw [socket]
    cases parseMillis entry.2 <;> rfl
  · split
    · cases parseMillis entry.2 <;> rfl
    · rfl

private theorem urlHost_eq (h : url.toList = "redis://".toList ++ rest) (host : String) :
    urlHost url = host ↔ (hostPort (authority rest)).1 = host.toList := by
  rw [urlHost, endpoint_redis h, ← String.toList_inj, String.toList_ofList]

private theorem urlPort_eq (h : url.toList = "redis://".toList ++ rest) (port : String) :
    urlPort url = port ↔ (hostPort (authority rest)).2.getD "6379".toList = port.toList := by
  rw [urlPort, endpoint_redis h, ← String.toList_inj, String.toList_ofList]

/-- A URL that is all host. -/
theorem located_host {name : String} (h : Located (some (.host name)) url) (port : String) :
    urlHost url = name ∧ urlPort url = port ↔
      BareHost name.toList ∧ port = FieldTable.standalone.port := by
  have default : FieldTable.standalone.port = "6379" := by decide
  rw [urlHost_eq h, urlPort_eq h, hostPort_authority_fst, default]
  refine and_congr_right fun bare => ?_
  rw [bare.no_port, Option.getD_none, String.toList_inj]
  exact eq_comm

private theorem hostPort_defaultHost {number path : List Char} (whole : Undelimited number)
    (ends : ∀ c ∈ path.head?, endsAuthority c = true) :
    hostPort (authority ("127.0.0.1".toList ++ ':' :: number ++ path)) =
      ("127.0.0.1".toList, some number) := by
  have front : Undelimited ("127.0.0.1".toList ++ ':' :: number) := by
    intro c hc
    rcases List.mem_append.mp hc with hc | hc
    · exact (by decide : Undelimited "127.0.0.1".toList) c hc
    · rcases List.mem_cons.mp hc with rfl | hc
      · decide
      · exact whole c hc
  rw [authority_append front ends]
  exact hostPort_append (by decide) (by decide)

/-- A URL of the default host with a port. -/
theorem located_port {number : String} (h : Located (some (.port number)) url) (host : String) :
    urlHost url = host ∧ urlPort url = number ↔
      Undelimited number.toList ∧ host = FieldTable.standalone.host := by
  have default : FieldTable.standalone.host = "127.0.0.1" := by decide
  obtain ⟨path, ends, h⟩ := h
  rw [urlHost_eq h, urlPort_eq h, default]
  constructor
  · rintro ⟨hhost, hport⟩
    have whole : Undelimited number.toList := by
      rw [← hport]
      exact undelimited_port _ (by decide)
    rw [hostPort_defaultHost whole ends, String.toList_inj] at hhost
    exact ⟨whole, hhost.symm⟩
  · rintro ⟨whole, rfl⟩
    rw [hostPort_defaultHost whole ends]
    exact ⟨rfl, rfl⟩

/-- The URL's host and port are the given ones under the condition only. -/
theorem endpoint_follows_iff (h : Located (lastWrite endpointWrite entries) url) :
    (urlHost url = (FieldTable.given entries).host ∧
      urlPort url = (FieldTable.given entries).port) ↔ EndpointFollows entries := by
  have hhost : (FieldTable.given entries).host =
      (lastWrite (write "redis.host" some) entries).getD FieldTable.standalone.host := rfl
  have hport : (FieldTable.given entries).port =
      (lastWrite (write "redis.port" some) entries).getD FieldTable.standalone.port := rfl
  rw [write_host_eq] at hhost
  rw [write_port_eq] at hport
  unfold EndpointFollows
  cases hlast : lastWrite endpointWrite entries with
  | none =>
    rw [hlast] at h
    rw [lastWrite_bind_none _ hlast] at hhost hport
    rw [hhost, hport]
    obtain rfl : url = RedisConfig.standalone.url := h
    exact iff_of_true ⟨rfl, rfl⟩ trivial
  | some written =>
    rw [hlast] at h
    cases written with
    | host name =>
      rw [lastWrite_bind hlast (show Endpoint.host? (.host name) = some name from rfl)] at hhost
      rw [hhost]
      exact located_host h _
    | port number =>
      rw [lastWrite_bind hlast (show Endpoint.port? (.port number) = some number from rfl)] at hport
      rw [hport]
      exact located_port h _

/-- The timeouts are the given ones under the condition only. -/
theorem timeouts_follow_iff (entries : List (String × String)) :
    ((((lastWrite timeoutWrite entries).map Timeout.duration).getD
        FieldTable.standalone.connectionTimeout = (FieldTable.given entries).connectionTimeout) ∧
      FieldTable.standalone.soTimeout = (FieldTable.given entries).soTimeout) ↔
    TimeoutsFollow entries := by
  have hconnection : (FieldTable.given entries).connectionTimeout =
      (lastWrite (write "redis.connectionTimeout" parseMillis) entries).getD
        FieldTable.standalone.connectionTimeout := rfl
  have hsocket : (FieldTable.given entries).soTimeout =
      (lastWrite (write "redis.soTimeout" parseMillis) entries).getD
        FieldTable.standalone.soTimeout := rfl
  have defaults : FieldTable.standalone.soTimeout = FieldTable.standalone.connectionTimeout := rfl
  rw [write_connectionTimeout_eq] at hconnection
  rw [write_soTimeout_eq] at hsocket
  unfold TimeoutsFollow
  cases hlast : lastWrite timeoutWrite entries with
  | none =>
    rw [lastWrite_bind_none _ hlast] at hconnection hsocket
    rw [hconnection, hsocket]
    exact iff_of_true ⟨rfl, rfl⟩ ⟨rfl, trivial⟩
  | some written =>
    cases written with
    | connection d =>
      rw [lastWrite_bind hlast
        (show Timeout.connection? (.connection d) = some d from rfl)] at hconnection
      rw [hconnection]
      constructor
      · rintro ⟨-, same⟩
        exact ⟨same.symm, trivial⟩
      · rintro ⟨same, -⟩
        exact ⟨rfl, same.symm⟩
    | socket d =>
      rw [lastWrite_bind hlast (show Timeout.socket? (.socket d) = some d from rfl)] at hsocket
      have hd : (FieldTable.given entries).soTimeout = d := hsocket
      rw [hd]
      constructor
      · rintro ⟨hc, hs⟩
        exact ⟨hs.symm, (hc.symm.trans hs.symm).trans defaults⟩
      · rintro ⟨hs, hc⟩
        exact ⟨(hs.trans defaults).trans hc.symm, hs.symm⟩

end

/-! ### The whole text -/

section
variable (entries : List (String × String))

private theorem foldl_timeouts :
    (entries.foldl applyKv .standalone).connectionTimeout =
      ((lastWrite timeoutWrite entries).map Timeout.duration).getD
        FieldTable.standalone.connectionTimeout ∧
    (entries.foldl applyKv .standalone).operationTimeout = FieldTable.standalone.soTimeout := by
  constructor
  · rw [← lastWrite_map]
    exact foldl_lastWrite (fun config entry => (applyKv_timeouts config entry).1) _ entries
  · have kept := foldl_lastWrite (fun config entry => (applyKv_timeouts config entry).2.trans
      (Option.getD_none (a := config.operationTimeout)).symm) .standalone entries
    rw [kept, lastWrite_of_never]
    rfl

/-- The fields with a key of their own are the given ones. -/
theorem foldl_fields :
    (entries.foldl applyKv .standalone).password = (FieldTable.given entries).password ∧
    (entries.foldl applyKv .standalone).database = (FieldTable.given entries).database ∧
    (entries.foldl applyKv .standalone).clientName = (FieldTable.given entries).clientName ∧
    (entries.foldl applyKv .standalone).serializer = (FieldTable.given entries).serializer ∧
    (entries.foldl applyKv .standalone).ssl = (FieldTable.given entries).ssl :=
  ⟨foldl_lastWrite (fun config entry => (applyKv_fields config entry).1) _ entries,
    foldl_lastWrite (fun config entry => (applyKv_fields config entry).2.1) _ entries,
    foldl_lastWrite (fun config entry => (applyKv_fields config entry).2.2.1) _ entries,
    foldl_lastWrite (fun config entry => (applyKv_fields config entry).2.2.2.1) _ entries,
    foldl_lastWrite (fun config entry => (applyKv_fields config entry).2.2.2.2) _ entries⟩

end

/-- No line disturbs the field of another one. -/
def Follows (entries : List (String × String)) : Prop :=
  EndpointFollows entries ∧ TimeoutsFollow entries

private theorem foldl_follows_iff (entries : List (String × String)) :
    (entries.foldl applyKv .standalone).fields = .given entries ↔ Follows entries := by
  have endpoint := endpoint_follows_iff (located_parse entries)
  have timeouts := timeouts_follow_iff entries
  obtain ⟨connection, operation⟩ := foldl_timeouts entries
  obtain ⟨password, database, clientName, serializer, ssl⟩ := foldl_fields entries
  rw [Follows, ← endpoint, ← timeouts, ← connection, ← operation]
  constructor
  · intro h
    rw [← h]
    exact ⟨⟨rfl, rfl⟩, rfl, rfl⟩
  · rintro ⟨⟨host, port⟩, connectionTimeout, soTimeout⟩
    exact FieldTable.ext host port connectionTimeout soTimeout password database clientName
      serializer ssl

/-- The configuration has every field as given exactly if no line disturbs another field, and then
the order of the lines matters only among lines of one key. -/
theorem parse_follows_iff (text : String) :
    ((parse text).fields = .given (settings text) ↔ Follows (settings text)) ∧
    ∀ other, SameByKey Prod.fst (settings text) (settings other) → Follows (settings text) →
      Follows (settings other) → (parse text).fields = (parse other).fields := by
  refine ⟨foldl_follows_iff _, fun other same followed followed' => ?_⟩
  calc (parse text).fields
      = .given (settings text) := (foldl_follows_iff _).mpr followed
    _ = .given (settings other) := FieldTable.given_eq_of_sameByKey same
    _ = (parse other).fields := ((foldl_follows_iff _).mpr followed').symm

/-- A host and a database in either order. -/
theorem host_and_database_follow :
    (parse "redis.host=10.0.0.5\nredis.database=3").fields =
      (parse "redis.database=3\nredis.host=10.0.0.5").fields := by
  have one : settings "redis.host=10.0.0.5\nredis.database=3" =
    [("redis.host", "10.0.0.5"), ("redis.database", "3")] := by decide
  have two : settings "redis.database=3\nredis.host=10.0.0.5" =
    [("redis.database", "3"), ("redis.host", "10.0.0.5")] := by decide
  have bare : BareHost "10.0.0.5".toList := ⟨by decide, by decide⟩
  refine (parse_follows_iff "redis.host=10.0.0.5\nredis.database=3").2
    "redis.database=3\nredis.host=10.0.0.5" ?_ ?_ ?_
  · rw [one, two]
    exact SameByKey.swap (by decide) [] []
  · rw [one]
    exact ⟨⟨bare, by decide⟩, by decide, trivial⟩
  · rw [two]
    exact ⟨⟨bare, by decide⟩, by decide, trivial⟩

/-- A port behind a host brings the default host back, a host behind a port the default port, and
the socket timeout is taken for the connection timeout. -/
theorem fields_overwritten :
    (parse "redis.host=10.0.0.5\nredis.port=6380").url = "redis://127.0.0.1:6380" ∧
    (parse "redis.port=6380\nredis.host=10.0.0.5").url = "redis://10.0.0.5" ∧
    (parse "redis.soTimeout=500").connectionTimeout = .fromMillis 500 ∧
    (parse "redis.soTimeout=500").operationTimeout = .fromSecs 2 ∧
    ¬ ∀ text, (parse text).fields = .given (settings text) := by
  refine ⟨by decide, by decide, by decide, by decide, fun followed => ?_⟩
  exact absurd (followed "redis.host=10.0.0.5\nredis.port=6380") (by decide)

end RbatisCache.Redis
