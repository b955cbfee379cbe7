import VirtualShell.Agent.Definition
import VirtualShell.Shell.Basic

/-!
Commands of a shell as tools that a model can call. A call is written `TOOL[name](args)`, or without the part
in parentheses, anywhere in a text. Only calls that the text itself holds are made: what a tool answers is
not looked at again.
-/
namespace VirtualShell.Agent

/-- What can go wrong when an agent is loaded or run. -/
inductive AgentError where
  | definition (cause : DefinitionError)
  | notFound (path : String)
  | notPending (pid : String)
  /-- The model failed. -/
  | model (reason : String)
  | storage (cause : StorageError)
  deriving DecidableEq, Repr

def AgentError.message : AgentError → String
  | .definition cause => cause.message
  | .notFound path => "agent file not found: " ++ path
  | .notPending pid => s!"process {pid} is not pending"
  | .model reason => "llm error: " ++ reason
  | .storage cause => cause.message

structure Tool where
  name : String
  description : String
  deriving DecidableEq, Repr

namespace Tool

/-- The tool that runs a command with arguments of any form. -/
def ofCommand (name usage : String) : Tool :=
  ⟨name, s!"Execute {name} shell command. Usage: {usage}"⟩

/-- The form of the arguments of a tool: one text. -/
def parameters : Json :=
  let argument := Json.object [("type", .string "string"), ("description", .string "Arguments for the command")]
  .object [("type", .string "object"), ("properties", .object [("args", argument)])]

def toJson (tool : Tool) : Json :=
  .object [("name", .string tool.name), ("description", .string tool.description),
    ("parameters", parameters)]

/-- The tools for the names that are commands, in the order asked for and each once. -/
def manifest (usage : Keyed String) (requested : List String) : List Tool :=
  requested.foldl (fun tools name =>
    if tools.any fun tool => tool.name == name then tools
    else match Keyed.find? name usage with
      | some text => tools ++ [ofCommand name text]
      | none => tools) []

end Tool

/-! ### Calls -/

structure ToolCall where
  name : String
  arguments : String
  deriving DecidableEq, Repr

/-- A text as what stands in it: single characters and calls. -/
inductive Piece where
  | char (c : Char)
  | call (call : ToolCall)
  deriving DecidableEq, Repr

def callMark : List Char := ['T', 'O', 'O', 'L', '[']

/-- What stands before a closing sign, and what follows it; none without the sign. -/
def upTo? (close : Char) (cs : List Char) : Option (List Char × List Char) :=
  match cs.dropWhile (· != close) with
  | [] => none
  | _ :: rest => some (cs.takeWhile (· != close), rest)

/-- The call at the start of a text, and what follows it. -/
def callAt? (cs : List Char) : Option (ToolCall × List Char) :=
  if !callMark.isPrefixOf cs then none
  else match upTo? ']' (cs.drop callMark.length) with
    | none => none
    | some ([], _) => none
    | some (name, rest) =>
      let bare := (⟨.ofList name, ""⟩, rest)
      match rest with
      | '(' :: inner =>
        match upTo? ')' inner with
        | some (arguments, after) => some (⟨.ofList name, .ofList arguments⟩, after)
        | none => some bare
      | _ => some bare

/-- The pieces of a text of a bounded length. -/
def piecesWithin : Nat → List Char → List Piece
  | 0, _ => []
  | _ + 1, [] => []
  | fuel + 1, c :: rest =>
    match callAt? (c :: rest) with
    | some (call, after) => .call call :: piecesWithin fuel after
    | none => .char c :: piecesWithin fuel rest

def pieces (text : String) : List Piece := piecesWithin text.toList.length text.toList

/-- What takes the place of a call in a text. -/
def callResult (call : ToolCall) : Except AgentError String → String
  | .ok output => s!"[{call.name} result: {output}]"
  | .error e => s!"[Error executing {call.name}: {e.message}]"

/-- Makes the calls of some pieces one after the other. -/
def expandPieces {σ : Type} (run : ToolCall → StateM σ (Except AgentError String)) :
    List Piece → StateM σ (List Char)
  | [] => return []
  | .char c :: rest => do return c :: (← expandPieces run rest)
  | .call call :: rest => do
    let result := callResult call (← run call)
    return result.toList ++ (← expandPieces run rest)

/-- Makes the calls in a text and puts their results in their places. -/
def expand {σ : Type} (run : ToolCall → StateM σ (Except AgentError String)) (text : String) :
    StateM σ String := do
  return .ofList (← expandPieces run (pieces text))

/-- Runs a call as a line of a shell. -/
def runOnShell {σ : Type} [Storage σ] (call : ToolCall) : StateM (Shell σ) (Except AgentError String) := do
  let shell ← get
  if Keyed.contains call.name shell.commands then
    let (output, shell) := shell.execute (call.name ++ " " ++ call.arguments)
    set shell
    return .ok output
  else return .ok ("Unknown tool: " ++ call.name)

end VirtualShell.Agent
