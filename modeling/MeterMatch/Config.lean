import MeterMatch.Text.Upper

/-! # Engine configuration

The engine is configured by environment variables, optionally per profile. For a profile `P`
(upper-cased) a setting `K` is read from `P_K` first and from `K` after; an empty value counts
as unset, and a value that is not a decimal numeral of the setting's width counts as unset too,
leaving the default.

| setting | variable | default |
|---|---|---|
| bucket capacity | `METERDEF_RATE_LIMIT_CAPACITY` | 10 |
| refill interval (s) | `METERDEF_RATE_LIMIT_REFILL_SECS` | 5 |
| idle bucket lifetime (s) | `METERDEF_RATE_LIMIT_IDLE_TTL_SECS` | 3600 |
| match cache capacity | `METERDEF_MATCH_CACHE_CAPACITY` | 65536 |
| resync interval (s) | `METERDEF_RESYNC_INTERVAL_SECS` | 300 |
| retry backoff (ms) | `METERDEF_RETRY_BACKOFF_MS` | 500 |

A numeral is ASCII digits after an optional `+`, with a value below `2 ^ width`.
-/

namespace MeterMatch

/-- Environment variables, looked up by name; the first binding of a name counts. -/
abbrev Env := List (String × String)

/-- The value of a variable. -/
def Env.get? (env : Env) (name : String) : Option String :=
  (env.find? (·.1 == name)).map (·.2)

/-- An unsigned decimal numeral below `2 ^ width`, with an optional leading `+`. -/
def parseUnsigned? (width : Nat) (s : String) : Option Nat :=
  let digits := if s.startsWith "+" then (s.drop 1).toString else s
  if digits.isEmpty || !digits.toList.all Char.isDigit then none
  else
    let n := digits.toList.foldl (fun n c => 10 * n + (c.toNat - 48)) 0
    if n < Nat.pow 2 width then some n else none

/-- Why a configuration is refused. -/
inductive ConfigError where
  | zeroCapacity
  | zeroRefill
  | zeroCache
  | zeroResync
  deriving DecidableEq, Inhabited

/-- The error's text. -/
def ConfigError.message : ConfigError → String
  | .zeroCapacity => "config error: rate limit capacity must be greater than zero"
  | .zeroRefill => "config error: rate limit refill interval must be greater than zero"
  | .zeroCache => "config error: match cache capacity must be greater than zero"
  | .zeroResync => "config error: resync interval must be greater than zero"

/-- The engine's settings; durations are in milliseconds. -/
structure EngineConfig where
  profile : String := ""
  capacity : Nat := 10
  refillMs : Nat := 5000
  idleTtlMs : Nat := 3600000
  cacheCapacity : Nat := 65536
  resyncMs : Nat := 300000
  retryBackoffMs : Nat := 500
  deriving DecidableEq, Inhabited

namespace EngineConfig

/-- A setting's text: the profiled variable first, then the plain one; empty means unset. -/
def lookup (env : Env) (profile key : String) : Option String :=
  let nonEmpty (v : Option String) := v.filter (!·.isEmpty)
  let profiled := if profile.isEmpty then none else nonEmpty (env.get? (profile ++ "_" ++ key))
  profiled.orElse fun _ => nonEmpty (env.get? key)

/-- A numeric setting, or its default. -/
def setting (env : Env) (profile key : String) (width dflt : Nat) : Nat :=
  ((lookup env profile key).bind (parseUnsigned? width)).getD dflt

/-- The settings of a profile (upper-cased first). -/
def forProfile (env : Env) (profile : String) : EngineConfig :=
  let p := Text.toUpper profile
  { profile := p
    capacity := setting env p "METERDEF_RATE_LIMIT_CAPACITY" 32 10
    refillMs := 1000 * setting env p "METERDEF_RATE_LIMIT_REFILL_SECS" 64 5
    idleTtlMs := 1000 * setting env p "METERDEF_RATE_LIMIT_IDLE_TTL_SECS" 64 3600
    cacheCapacity := setting env p "METERDEF_MATCH_CACHE_CAPACITY" 64 65536
    resyncMs := 1000 * setting env p "METERDEF_RESYNC_INTERVAL_SECS" 64 300
    retryBackoffMs := setting env p "METERDEF_RETRY_BACKOFF_MS" 64 500 }

/-- The names of the settings' variables, without a profile. -/
def settingNames : List String :=
  ["METERDEF_RATE_LIMIT_CAPACITY", "METERDEF_RATE_LIMIT_REFILL_SECS",
   "METERDEF_RATE_LIMIT_IDLE_TTL_SECS", "METERDEF_MATCH_CACHE_CAPACITY",
   "METERDEF_RESYNC_INTERVAL_SECS", "METERDEF_RETRY_BACKOFF_MS"]

/-- Every variable that the settings of a profile (upper-cased) may read. -/
def variableNames (profile : String) : List String :=
  "METERDEF_PROFILE" :: settingNames ++
    (if profile.isEmpty then [] else settingNames.map (profile ++ "_" ++ ·))

/-- The settings of the profile named by `METERDEF_PROFILE`, if any. -/
def fromEnv (env : Env) : EngineConfig :=
  forProfile env (Text.toUpper ((env.get? "METERDEF_PROFILE").getD ""))

/-- The profile's name, or `default`. -/
def profileLabel (c : EngineConfig) : String := if c.profile.isEmpty then "default" else c.profile

/-- Refuses zero capacities and intervals, in the order capacity, refill, cache, resync. -/
def validate (c : EngineConfig) : Except ConfigError Unit :=
  if c.capacity == 0 then .error .zeroCapacity
  else if c.refillMs == 0 then .error .zeroRefill
  else if c.cacheCapacity == 0 then .error .zeroCache
  else if c.resyncMs == 0 then .error .zeroResync
  else .ok ()

end EngineConfig

end MeterMatch
