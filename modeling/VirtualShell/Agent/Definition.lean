import VirtualShell.Config

/-!
Agents as they are declared: a first line `#!agent`, and a YAML mapping whose entries all have defaults. An
unknown mode does not count, while any other misfit makes the declaration invalid.
-/
namespace VirtualShell.Agent

/-- Where an agent reads from or writes to. -/
inductive Channel where
  | stdin
  | stdout
  | file
  | socket
  | pipe
  deriving DecidableEq, Repr

namespace Channel

def all : List Channel := [.stdin, .stdout, .file, .socket, .pipe]

def name : Channel → String
  | .stdin => "stdin"
  | .stdout => "stdout"
  | .file => "file"
  | .socket => "socket"
  | .pipe => "pipe"

def ofName? (name : String) : Option Channel := all.find? fun channel => channel.name == name

end Channel

/-- How long an agent remembers. -/
inductive Memory where
  | none
  | session
  | persistent
  deriving DecidableEq, Repr

namespace Memory

def all : List Memory := [.none, .session, .persistent]

def name : Memory → String
  | .none => "none"
  | .session => "session"
  | .persistent => "persistent"

def ofName? (name : String) : Option Memory := all.find? fun memory => memory.name == name

end Memory

structure Definition where
  /-- The name, which also tells whose memory is meant. -/
  name : String
  model : String
  systemPrompt : String
  /-- The commands that the agent may call. -/
  tools : List String
  input : Channel
  output : Channel
  contextSize : UInt32
  memory : Memory
  temperature : Number.Binary64
  maxTokens : Option UInt32
  environment : Keyed String
  /-- The time limit of a run in seconds. -/
  timeout : Option UInt64
  deriving Repr

inductive DefinitionError where
  | missingMark
  | invalid (cause : YamlError)
  deriving DecidableEq, Repr

def DefinitionError.message : DefinitionError → String
  | .missingMark => "invalid agent file: missing #!agent shebang"
  | .invalid cause => "invalid agent YAML: " ++ cause.message

namespace Definition

def standard : Definition where
  name := "unnamed_agent"
  model := "gpt-3.5-turbo"
  systemPrompt := ""
  tools := []
  input := .stdin
  output := .stdout
  contextSize := 4096
  memory := .session
  temperature := .ofDecimal false 7 (-1)
  maxTokens := none
  environment := []
  timeout := none

/-- Whether two definitions are equal; a temperature that is no number equals none. -/
def same (a b : Definition) : Bool :=
  a.name == b.name && a.model == b.model && a.systemPrompt == b.systemPrompt && a.tools == b.tools &&
    a.input == b.input && a.output == b.output && a.contextSize == b.contextSize &&
    a.memory == b.memory && a.temperature.same b.temperature && a.maxTokens == b.maxTokens &&
    a.environment == b.environment && a.timeout == b.timeout

/-! ### Reading -/

open Yaml Yaml.Decoder

/-- An optional entry, and the value that stands for it if it is missing or null. -/
def entry {α : Type} (name : String) (decoder : Decoder α) (absent : α)
    (fields : List (String × Yaml.Node)) : Decode α := do
  return (← field name (option decoder) none fields).getD absent

/-- A mode by its name; a value of any other kind is passed over. -/
def mode {α : Type} (name : String) (ofName? : String → Option α) (absent : α)
    (fields : List (String × Yaml.Node)) : Decode α := do
  let written ← field name (option (value (depthLimit - 1))) none fields
  return ((written.bind Value.text?).bind ofName?).getD absent

def count : Decoder UInt32 := fun node => return (← natural UInt32.size node).toUInt32

def decode : Decoder Definition := fun node => do
  let fields ← fields ["name", "model", "system_prompt", "tools", "input", "output", "memory",
    "context_size", "temperature", "max_tokens", "environment", "timeout"] node
  return {
    name := ← entry "name" text standard.name fields
    model := ← entry "model" text standard.model fields
    systemPrompt := ← entry "system_prompt" text standard.systemPrompt fields
    tools := ← entry "tools" (list text) standard.tools fields
    input := ← mode "input" Channel.ofName? standard.input fields
    output := ← mode "output" Channel.ofName? standard.output fields
    contextSize := ← entry "context_size" count standard.contextSize fields
    memory := ← mode "memory" Memory.ofName? standard.memory fields
    temperature := ← entry "temperature" float standard.temperature fields
    maxTokens := ← field "max_tokens" (option count) none fields
    environment := ← entry "environment" (keyed text) standard.environment fields
    timeout := ← field "timeout" (option Config.word) none fields }

def mark : String := "#!agent"

/-- The lines behind the mark, if the first line is that. -/
def body? (text : List Char) : Option (List Char) :=
  let text := Text.trimStart text
  let (first, rest) := Text.cut (· == '\n') text
  if mark.toList.isPrefixOf first then
    match first.drop mark.length with
    | [] => some (rest.drop 1)
    | c :: _ => if Text.isBlank c then some (rest.drop 1) else none
  else none

/-- The definition in the lines behind the mark. -/
def ofBody (body : List Char) : Except DefinitionError Definition :=
  if body.all Text.isBlank then .ok standard
  else match Yaml.decode (option decode) (.ofList body) with
    | .ok definition => .ok (definition.getD standard)
    | .error e => .error (.invalid e)

/-- The definition in a text whose first line is the mark. -/
def ofText (text : String) : Except DefinitionError Definition :=
  match body? text.toList with
  | some body => ofBody body
  | none => .error .missingMark

/-- The definition in a text with or without the mark. -/
def ofTextLenient (text : String) : Except DefinitionError Definition :=
  let text := Text.trim text.toList
  ofBody ((body? text).getD text)

/-! ### Writing -/

/-- The definition as a value, with its parts in a fixed order. -/
def toJson (definition : Definition) : Json :=
  let number (n : UInt32) : Json := .ofNat n.toNat
  .object ([("name", .string definition.name), ("model", .string definition.model),
      ("system_prompt", .string definition.systemPrompt), ("tools", Config.textsJson definition.tools),
      ("input", .string definition.input.name), ("output", .string definition.output.name),
      ("context_size", number definition.contextSize), ("memory", .string definition.memory.name),
      ("temperature", .number (.float definition.temperature))]
    ++ Config.given "max_tokens" number definition.maxTokens
    ++ (if definition.environment.isEmpty then []
      else [("environment", Config.variablesJson definition.environment)])
    ++ Config.given "timeout" Config.wordJson definition.timeout)

def toYaml (definition : Definition) : String := mark ++ "\n" ++ Yaml.print definition.toJson

end Definition
end VirtualShell.Agent
