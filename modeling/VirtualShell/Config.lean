import VirtualShell.Policy.Basic
import VirtualShell.Storage.Provider
import VirtualShell.Yaml.Decoder
import VirtualShell.Yaml.Printer

/-! How a shell is set up: its store and policy, names, environment and agents. Every part has a default. -/
namespace VirtualShell

/-- A profile, and what is set in place of its parts. -/
structure SecurityConfig where
  profile : Profile
  overrides : Overrides
  deriving DecidableEq, Repr

def SecurityConfig.policy (security : SecurityConfig) : Policy :=
  (Policy.ofProfile security.profile).override security.overrides

/-- A span of time. -/
structure Duration where
  seconds : UInt64
  /-- What is beyond the whole seconds. -/
  nanoseconds : Fin 1000000000
  deriving DecidableEq, Repr

namespace Duration

def ofMillis (milliseconds : UInt64) : Duration where
  seconds := milliseconds / 1000
  nanoseconds := ⟨milliseconds.toNat % 1000 * 1000000, by omega⟩

/-- The whole milliseconds of a duration, which may be more than a word holds. -/
def millis (duration : Duration) : Nat := duration.seconds.toNat * 1000 + duration.nanoseconds / 1000000

end Duration

/-- How agents are run. -/
structure AgentsConfig where
  /-- The time limit of agents that set none. -/
  defaultTimeout : Option Duration
  /-- How long the mock model takes to answer. -/
  mockLatency : Duration
  deriving DecidableEq, Repr

structure Config where
  provider : String
  args : ProviderArgs
  security : Option SecurityConfig
  hostname : String
  home : String
  /-- Variables beside those that every session has. -/
  environment : Keyed String
  agents : AgentsConfig

namespace Config

def defaultHostname : String := "vshell"

def defaultHome : String := "/home/user"

def standard : Config where
  provider := "memory"
  args := []
  security := none
  hostname := defaultHostname
  home := defaultHome
  environment := []
  agents := ⟨none, .ofMillis 100⟩

/-- Whether two configurations are equal, with the arguments compared as values. -/
def same (a b : Config) : Bool :=
  a.provider == b.provider && Json.sameMembers a.args b.args && a.security == b.security &&
    a.hostname == b.hostname && a.home == b.home && a.environment == b.environment &&
    a.agents == b.agents

/-! ### Reading -/

open Yaml Yaml.Decoder

def word : Decoder UInt64 := fun node => return (← natural UInt64.size node).toUInt64

/-- A duration, in milliseconds. -/
def duration : Decoder Duration := fun node => return .ofMillis (← word node)

/-- How deeply the arguments of a store may nest: the mappings around them count too. -/
def argumentDepth : Nat := depthLimit - 3

def decodeProvider : Decoder (String × ProviderArgs) := fun node => do
  let fields ← fields ["name", "args"] node
  let name ← field "name" text standard.provider fields
  let args ← field "args" (keyed (json argumentDepth)) standard.args fields
  return (name, args)

def overrideNames : List String :=
  ["max_file_size", "max_total_size", "read_only", "allowed_paths", "denied_paths", "denied_patterns",
    "max_path_depth"]

def decodeSecurity : Decoder SecurityConfig := fun node => do
  let fields ← fields ("profile" :: overrideNames) node
  let profile ← field "profile" (choice Profile.ofName?) .standard fields
  let maxFileSize ← field "max_file_size" (option word) none fields
  let maxTotalSize ← field "max_total_size" (option word) none fields
  let readOnly ← field "read_only" (option bool) none fields
  let allowedPaths ← field "allowed_paths" (option (list text)) none fields
  let deniedPaths ← field "denied_paths" (option (list text)) none fields
  let deniedPatterns ← field "denied_patterns" (option (list text)) none fields
  let maxPathDepth ← field "max_path_depth" (option word) none fields
  return ⟨profile, ⟨maxFileSize, maxTotalSize, readOnly, allowedPaths, deniedPaths, deniedPatterns,
    maxPathDepth⟩⟩

def decodeAgents : Decoder AgentsConfig := fun node => do
  let fields ← fields ["default_timeout_ms", "mock_latency_ms"] node
  let defaultTimeout ← field "default_timeout_ms" (option duration) standard.agents.defaultTimeout fields
  let mockLatency ← field "mock_latency_ms" duration standard.agents.mockLatency fields
  return { defaultTimeout, mockLatency }

def decode : Decoder Config := fun node => do
  let fields ← fields ["provider", "security", "hostname", "home", "environment", "agents"] node
  let (provider, args) ← field "provider" decodeProvider (standard.provider, standard.args) fields
  let security ← field "security" (option decodeSecurity) none fields
  let hostname ← field "hostname" text standard.hostname fields
  let home ← field "home" text standard.home fields
  let environment ← field "environment" (keyed text) standard.environment fields
  let agents ← field "agents" decodeAgents standard.agents fields
  return { provider, args, security, hostname, home, environment, agents }

/-- The configuration in a YAML text; a blank text is the default one. -/
def ofYaml (text : String) : Except YamlError Config :=
  if Text.isBlankText text then .ok standard else Yaml.decode decode text

/-- The configuration in a JSON value. -/
def ofJson (value : Json) : Except YamlError Config :=
  (Document.mk (Yaml.ofJson Yaml.numberText value) []).decode decode

/-! ### Writing -/

/-- A member that is left out when there is no value. -/
def given {α : Type} (key : String) (toJson : α → Json) (value : Option α) : List (String × Json) :=
  match value with
  | some x => [(key, toJson x)]
  | none => []

def wordJson (n : UInt64) : Json := .number (.natural n)

/-- A duration is written in milliseconds, cut to a word. -/
def durationJson (duration : Duration) : Json := wordJson duration.millis.toUInt64

def textsJson (texts : List String) : Json := .array (texts.map .string)

def variablesJson (environment : Keyed String) : Json :=
  .object (environment.map fun (key, value) => (key, .string value))

def securityJson (security : SecurityConfig) : Json :=
  let parts := security.overrides
  .object (("profile", .string security.profile.name)
    :: given "max_file_size" wordJson parts.maxFileSize
    ++ given "max_total_size" wordJson parts.maxTotalSize
    ++ given "read_only" .bool parts.readOnly
    ++ given "allowed_paths" textsJson parts.allowedPaths
    ++ given "denied_paths" textsJson parts.deniedPaths
    ++ given "denied_patterns" textsJson parts.deniedPatterns
    ++ given "max_path_depth" wordJson parts.maxPathDepth)

def agentsJson (agents : AgentsConfig) : Json :=
  .object (given "default_timeout_ms" durationJson agents.defaultTimeout
    ++ [("mock_latency_ms", durationJson agents.mockLatency)])

/-- The configuration as a value, with its parts in a fixed order. -/
def toJson (config : Config) : Json :=
  .object (("provider", .object [("name", .string config.provider), ("args", .object config.args)])
    :: given "security" securityJson config.security
    ++ [("hostname", .string config.hostname), ("home", .string config.home),
      ("environment", variablesJson config.environment), ("agents", agentsJson config.agents)])

def toYaml (config : Config) : String := Yaml.print config.toJson

end Config
end VirtualShell
