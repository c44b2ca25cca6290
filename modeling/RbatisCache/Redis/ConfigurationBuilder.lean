import RbatisCache.Spi.Primitives
import RbatisCache.Text.Url

/-! The connection settings of the Redis backend (`redis_config.rs`) and how they are read from a
properties text (`configuration_builder.rs`). -/
namespace RbatisCache.Redis
open Text

structure RedisConfig where
  url : String
  password : Option String
  database : UInt8
  clientName : Option String
  connectionTimeout : Duration
  operationTimeout : Duration
  ssl : Bool
  serializer : String
  deriving DecidableEq

def RedisConfig.standalone : RedisConfig where
  url := "redis://127.0.0.1:6379/0"
  password := none
  database := 0
  clientName := none
  connectionTimeout := .fromSecs 2
  operationTimeout := .fromSecs 2
  ssl := false
  serializer := "jdk"

namespace RedisConfigurationBuilder

/-- What a line sets: its key and its value. -/
def setting (line : List Char) : Option (String × String) :=
  let line := trim line
  if line.isEmpty || line.head? == some '#' then none
  else (splitOnce '=' line).map fun (key, value) =>
    (String.ofList (trim key), String.ofList (trim value))

def settings (text : String) : List (String × String) := (lines text.toList).filterMap setting

/-- `str::parse::<u8>` -/
def parseU8 (value : String) : Option UInt8 := (parseUnsigned 255 value.toList).map .ofNat

/-- `str::parse::<u64>`, as milliseconds. -/
def parseMillis (value : String) : Option Duration :=
  (parseUnsigned (2 ^ 64 - 1) value.toList).map .fromMillis

/-- The arm for `redis.port`: all that is between the scheme and the path is replaced. -/
def replacePort (url value : String) : String :=
  if ':' ∈ url.toList then
    let start := schemeEnd url.toList
    let stop := (find ['/'] (url.toList.drop start)).elim url.toList.length (start + ·)
    String.ofList (url.toList.take start ++ ("127.0.0.1:" ++ value).toList ++
      url.toList.drop stop)
  else url

/-- A number that cannot be read leaves its field as it is. -/
def applyKv (config : RedisConfig) (entry : String × String) : RedisConfig :=
  match entry.1 with
  | "redis.host" => { config with url := "redis://" ++ entry.2 }
  | "redis.port" => { config with url := replacePort config.url entry.2 }
  | "redis.password" => { config with password := some entry.2 }
  | "redis.database" => { config with database := (parseU8 entry.2).getD config.database }
  | "redis.connectionTimeout" | "redis.soTimeout" =>
    { config with connectionTimeout := (parseMillis entry.2).getD config.connectionTimeout }
  | "redis.clientName" => { config with clientName := some entry.2 }
  | "redis.ssl" => { config with ssl := eqIgnoreAsciiCase entry.2.toList "true".toList }
  | "redis.serializer" => { config with serializer := entry.2 }
  | _ => config

def parse (text : String) : RedisConfig := (settings text).foldl applyKv .standalone

end RedisConfigurationBuilder
end RbatisCache.Redis
