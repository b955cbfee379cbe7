import VirtualShell.Json.Reader
import VirtualShell.Policy.Basic

/-!
The options of the command line. A value follows its option, or an equals sign; every option but the
arguments of a store comes once at most, and behind `--` there are only operands.
-/
namespace VirtualShell.CommandLine

structure Options where
  config : Option String
  provider : Option String
  providerArgs : List (String × Json)
  security : Option Profile
  command : Option String
  script : Option String
  agent : Option String
  input : Option String
  background : Bool

namespace Options

def none : Options := ⟨.none, .none, [], .none, .none, .none, .none, .none, false⟩

/-- The files that are to be read. -/
def files (options : Options) : List String :=
  [options.config, options.script, options.agent].filterMap id

/-- Whether lines are to be taken as they are entered. -/
def isInteractive (options : Options) : Bool :=
  options.command.isNone && options.script.isNone && options.agent.isNone

end Options

/-- Why there are no options to go by. -/
inductive Refusal where
  /-- The usage is asked for. -/
  | help
  /-- The arguments are not understood. -/
  | misuse
  deriving DecidableEq, Repr

inductive Flag where
  | config
  | provider
  | providerArg
  | security
  | command
  | agent
  | input
  | background
  | help
  deriving DecidableEq, Repr

namespace Flag

def ofLong? (name : String) : Option Flag :=
  match name with
  | "config" => some .config
  | "provider" => some .provider
  | "provider-arg" => some .providerArg
  | "security" => some .security
  | "agent" => some .agent
  | "input" => some .input
  | "background" => some .background
  | "help" => some .help
  | _ => none

def ofShort? (c : Char) : Option Flag :=
  if c == 'c' then some .command else if c == 'h' then some .help else none

def takesValue (flag : Flag) : Bool := flag != .background && flag != .help

end Flag

/-- The usage, as it is printed. -/
def usage : String := "\n".intercalate [
  "Unix-like shell over a pluggable virtual filesystem", "",
  "Usage: vshell [OPTIONS] [SCRIPT]", "",
  "Arguments:",
  "  [SCRIPT]  Script file to execute", "",
  "Options:",
  "      --config <CONFIG>           YAML configuration file",
  "      --provider <PROVIDER>       Storage provider (memory, sqlite, s3)",
  "      --provider-arg <KEY=VALUE>  Provider argument; the value is parsed as JSON, falling back to a string",
  "      --security <SECURITY>       Security profile (default, strict, readonly, untrusted, testing)",
  "  -c <COMMAND>                    Command line to execute",
  "      --agent <AGENT>             Agent definition file to run",
  "      --input <INPUT>             Input handed to the agent [default: \"\"]",
  "      --background                Schedule the agent as a background task",
  "  -h, --help                      Print help", ""]

/-- An argument of a store: a name, an equals sign, and a value in JSON or else a text. -/
def providerArg? (argument : String) : Option (String × Json) :=
  match Text.cut (· == '=') argument.toList with
  | ([], _) => none
  | (_, []) => none
  | (name, _ :: value) =>
    let value := String.ofList value
    some (.ofList name, match Json.read value with
      | .ok json => json
      | .error _ => .string value)

/-- A path, which is not empty. -/
def path? (value : String) : Option String := if value.isEmpty then none else some value

def orMisuse {α : Type} (value : Option α) : Except Refusal α :=
  match value with
  | some x => .ok x
  | none => .error .misuse

/-- The first value of an option. -/
def once {α : Type} (before : Option α) (value : Option α) : Except Refusal (Option α) :=
  match before, value with
  | none, some x => .ok (some x)
  | _, _ => .error .misuse

/-- Sets an option to a value. -/
def setFlag (options : Options) (value : String) : Flag → Except Refusal Options
  | .config => do return { options with config := ← once options.config (path? value) }
  | .provider => do return { options with provider := ← once options.provider (some value) }
  | .providerArg => do
    return { options with providerArgs := options.providerArgs ++ [← orMisuse (providerArg? value)] }
  | .security => do return { options with security := ← once options.security (Profile.ofName? value) }
  | .command => do return { options with command := ← once options.command (some value) }
  | .agent => do return { options with agent := ← once options.agent (path? value) }
  | .input => do return { options with input := ← once options.input (some value) }
  | .background => .error .misuse
  | .help => .error .misuse

/-- Sets an option that takes no value. -/
def raiseFlag (options : Options) : Flag → Except Refusal Options
  | .background => if options.background then .error .misuse else .ok { options with background := true }
  | .help => .error .help
  | _ => .error .misuse

def setOperand (options : Options) (operand : String) : Except Refusal Options := do
  return { options with script := ← once options.script (path? operand) }

/-- What an argument looks like. -/
inductive Shape where
  | separator
  /-- An option, with its value if that is part of the argument. -/
  | flag (flag : Option Flag) (value : Option String)
  | operand

def shapeOf (argument : String) : Shape :=
  match argument.toList with
  | ['-'] => .operand
  | ['-', '-'] => .separator
  | '-' :: '-' :: rest =>
    let (name, value) := Text.cut (· == '=') rest
    .flag (Flag.ofLong? (.ofList name)) (if value.isEmpty then none else some (.ofList (value.drop 1)))
  | '-' :: c :: rest =>
    match Flag.ofShort? c, rest with
    | some .help, _ => .flag (some .help) none
    | flag, [] => .flag flag none
    | flag, '=' :: value => .flag flag (some (.ofList value))
    | flag, value => .flag flag (some (.ofList value))
  | _ => .operand

/-- Reads the arguments one after the other. -/
def readArguments (options : Options) : List String → Except Refusal Options
  | [] => .ok options
  | argument :: rest =>
    match shapeOf argument with
    | .separator => rest.foldlM setOperand options
    | .operand => do readArguments (← setOperand options argument) rest
    | .flag none _ => .error .misuse
    | .flag (some flag) (some value) => do readArguments (← setFlag options value flag) rest
    | .flag (some flag) none =>
      if !flag.takesValue then do readArguments (← raiseFlag options flag) rest
      else match rest with
        | [] => .error .misuse
        | value :: rest =>
          match shapeOf value with
          | .operand => do readArguments (← setFlag options value flag) rest
          | _ => .error .misuse

/--
Whether options may stand together: at most one thing is to be run, and the last two options call for an agent
unless what is to be run leaves no room for one.
-/
def isConsistent (options : Options) : Bool :=
  let agent := options.agent.isSome
  let command := options.command.isSome
  let script := options.script.isSome
  !(command && script) && !(agent && (command || script))
    && (agent || command || script || (options.input.isNone && !options.background))

/-- The options that arguments stand for. -/
def parse (arguments : List String) : Except Refusal Options := do
  let options ← readArguments .none arguments
  if isConsistent options then return options else throw .misuse

end VirtualShell.CommandLine
