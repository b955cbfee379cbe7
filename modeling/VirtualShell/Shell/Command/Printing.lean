import VirtualShell.Number.Shortest
import VirtualShell.Shell.Command.Looking

/-! The commands that print text, and those about the session itself. -/
namespace VirtualShell.Command
variable {σ : Type} [Storage σ]

open Running

/-- Prints files one after the other. -/
def cat : Command σ where
  name := "cat"
  usage := "cat FILE... - concatenate files to the output"
  run arguments := do
    if arguments.isEmpty then fail "cat: missing operand"
    let contents ← arguments.mapM fun file => do
      match ← onFiles (FileSystem.read file) with
      | some content => pure content
      | none =>
        if ← onFiles (FileSystem.isDir file) then fail s!"cat: {file}: Is a directory"
        else fail s!"cat: {file}: No such file or directory"
    return String.join contents

/-- Prints its arguments. -/
def echo : Command σ where
  name := "echo"
  usage := "echo [TEXT]... - print the arguments separated by spaces"
  run arguments := return " ".intercalate arguments

/-- Prints the environment. -/
def env : Command σ where
  name := "env"
  usage := "env - print the environment as KEY=VALUE lines"
  run _ := return "\n".intercalate ((← get).environ.map fun (name, value) => name ++ "=" ++ value)

/-- Sets the variables of the arguments that have an equals sign, up to one without a name. -/
def setVariables : List String → Running σ Unit
  | [] => return ()
  | argument :: rest => do
    let (name, value) := Text.cut (· == '=') argument.toList
    match name, value with
    | _, [] => setVariables rest
    | [], _ => fail s!"export: `{argument}': not a valid identifier"
    | name, _ :: value =>
      setVariable (.ofList name) (.ofList value)
      setVariables rest

/-- Sets variables of the environment. -/
def export_ : Command σ where
  name := "export"
  usage := "export KEY=VALUE... - set environment variables"
  run arguments := do
    setVariables arguments
    return ""

/-- Lines with their numbers from `n` on. -/
def numbered (n : Nat) : List String → List String
  | [] => []
  | line :: rest => (padLeft 5 (toString n) ++ "  " ++ line) :: numbered (n + 1) rest

/-- Prints the lines entered so far. -/
def history : Command σ where
  name := "history"
  usage := "history - list previously entered command lines"
  run _ := return "\n".intercalate (numbered 1 (← get).history)

/-- Prints the usage of one command or of all. -/
def help : Command σ where
  name := "help"
  usage := "help [COMMAND] - list commands, or describe one"
  run arguments := do
    let usage := (← get).usage
    match arguments with
    | topic :: _ =>
      match Keyed.find? topic usage with
      | some text => return text
      | none => fail s!"help: no help topics match '{topic}'"
    | [] => return "\n".intercalate ("Available commands:" :: usage.map fun entry => "  " ++ entry.2)

/-- How many times a size is divided by 1024 to come below that, in three steps after the first. -/
def unitSteps (size : Nat) : Nat :=
  if size < 1 <<< 20 then 1 else if size < 1 <<< 30 then 2 else if size < 1 <<< 40 then 3 else 4

/-- A number of bytes in the largest fitting unit, with one place after the point. -/
def humanSize (bytes : Nat) : String :=
  if bytes < 1024 then toString bytes ++ "B"
  else
    let size := match Number.Binary64.ofNat bytes with
      | .finite _ mantissa exponent =>
        let (num, den) := Number.Binary64.ratio mantissa exponent
        num / den
      | _ => bytes
    let steps := unitSteps size
    Number.oneDecimal size (1 <<< (10 * steps)) ++ (["B", "K", "M", "G", "T"].getD steps "T")

/-- Prints how much is stored, and how much may be. -/
def quota : Command σ where
  name := "quota"
  usage := "quota [-h] - show storage usage and limits (-h: human-readable sizes)"
  run arguments := do
    let parsed ← Arguments.read "quota" ['h'] arguments
    let size (bytes : Nat) : String := if parsed.has 'h' then humanSize bytes else toString bytes
    let stats ← onFiles FileSystem.stats
    let used := [s!"Provider: {stats.provider}", s!"Files: {stats.files}",
      s!"Directories: {stats.directories}", s!"Used: {size stats.bytes}"]
    let limits := match (← get).fs.mount.guard? with
      | none => ["Limits: none"]
      | some guard =>
        let total := guard.policy.maxTotalSize.toNat
        let readOnly := if guard.policy.readOnly then "yes" else "no"
        [s!"File limit: {size guard.policy.maxFileSize.toNat}", s!"Total limit: {size total}",
          s!"Available: {size (total - stats.bytes)}", s!"Read-only: {readOnly}",
          s!"Violations: {guard.violations.length}"]
    return "\n".intercalate (used ++ limits)

def farewell : String := "Goodbye!"

/-- Ends the session. -/
def exit : Command σ where
  name := "exit"
  usage := "exit - leave the shell"
  run _ := do
    modify fun session => { session with running := false }
    return farewell

end VirtualShell.Command
