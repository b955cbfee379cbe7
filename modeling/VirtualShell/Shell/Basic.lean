import VirtualShell.Config
import VirtualShell.Shell.Command.Changing
import VirtualShell.Shell.Command.Printing

/-!
The shell: a session and the commands it knows. Whatever a line does, its answer is a text. A line may send
the output of its command to a file.
-/
namespace VirtualShell

structure Shell (σ : Type) where
  session : Session σ
  commands : Keyed (Command σ)

namespace Shell
variable {σ : Type}

/-- A table of commands by name. -/
def tableOf (commands : List (Command σ)) : Keyed (Command σ) :=
  Keyed.ofList (commands.map fun command => (command.name, command))

def builtin [Storage σ] : Keyed (Command σ) :=
  tableOf [.cd, .pwd, .ls, .mkdir, .touch, .cat, .rm, .rmdir, .cp, .mv, .find, .echo, .env, .export_,
    .history, .help, .quota, .exit]

/-! ### Lines -/

/-- The name of the command on a line, and its arguments. -/
def parse (line : String) : Option (String × List String) :=
  match Text.wordsOf line with
  | [] => none
  | name :: arguments => some (name, arguments)

/-- A file that takes the output of a command. -/
structure Redirect where
  target : String
  append : Bool
  deriving DecidableEq, Repr

def isArrow (argument : String) : Bool := argument.toList.head? == some '>'

def strayToken (token : String) : String := s!"syntax error near unexpected token `{token}'"

/--
Takes the first redirection out of the arguments. Its file may be part of the same argument or be the next
one; what follows that is left to the command.
-/
def splitRedirect (arguments : List String) : Except String (List String × Option Redirect) :=
  let before := arguments.takeWhile fun argument => !isArrow argument
  match arguments.drop before.length with
  | [] => .ok (arguments, none)
  | arrow :: rest =>
    let (append, inline) := match arrow.toList with
      | '>' :: '>' :: inline => (true, inline)
      | cs => (false, cs.drop 1)
    match inline, rest with
    | [], [] => .error (strayToken "newline")
    | [], target :: rest =>
      if isArrow target then .error (strayToken target)
      else .ok (before ++ rest, some ⟨target, append⟩)
    | inline, rest =>
      let target := String.ofList inline
      if isArrow target then .error (strayToken target)
      else .ok (before ++ rest, some ⟨target, append⟩)

/-- Output as the lines of a file. -/
def asLines (output : String) : String :=
  if output.isEmpty || output.toList.getLast? == some '\n' then output else output ++ "\n"

/-- The environment tells the working directory. -/
def syncPwd (session : Session σ) : Session σ :=
  { session with environ := Keyed.insert "PWD" session.fs.cwd session.environ }

variable [Storage σ]

/-- Writes output to a file; what is left to show is why that could not be done. -/
def redirect (name output : String) (aim : Redirect) (session : Session σ) : String × Session σ :=
  let content := asLines output
  let write := if aim.append then FileSystem.append aim.target content else FileSystem.write aim.target content
  let (result, fs) := write.run.run session.fs
  let shown := match result with
    | .ok true => ""
    | .ok false => s!"{name}: cannot write to '{aim.target}'"
    | .error e => "Error executing command: " ++ e.message
  (shown, { session with fs })

/-- Runs a command and sends its output where it belongs. -/
def runCommand (command : Command σ) (name : String) (arguments : List String) (session : Session σ) :
    String × Session σ :=
  match splitRedirect arguments with
  | .error reason => (s!"{name}: {reason}", session)
  | .ok (arguments, target) =>
    let (result, session) := (command.run arguments).run.run session
    let session := if name == "cd" then syncPwd session else session
    match result, target with
    | .error e, _ => (e.message, session)
    | .ok output, none => (output, session)
    | .ok output, some target => redirect name output target session

/-- The answer to a line. -/
def execute (line : String) (shell : Shell σ) : String × Shell σ :=
  let line := Text.trimmed line
  match parse line with
  | none => ("", shell)
  | some (name, arguments) =>
    let session := { shell.session with history := shell.session.history ++ [line] }
    if line == "exit" then (Command.farewell, { shell with session := { session with running := false } })
    else match Keyed.find? name shell.commands with
      | none => (s!"{name}: command not found", { shell with session })
      | some command =>
        let (output, session) := runCommand command name arguments session
        (output, { shell with session })

/-! ### The session from outside -/

def lookUp (shell : Shell σ) (name : String) : Option String := Keyed.find? name shell.session.environ

def assign (name value : String) (shell : Shell σ) : Shell σ :=
  { shell with session := { shell.session with environ := Keyed.insert name value shell.session.environ } }

def prompt (shell : Shell σ) : String :=
  let user := (shell.lookUp "USER").getD "user"
  let pwd := (shell.lookUp "PWD").getD "/"
  s!"{user}@{shell.session.hostname}:{pwd}$ "

/-- The commands whose names start with a text. -/
def complete (shell : Shell σ) (start : String) : List String :=
  shell.commands.keys.filter fun name => start.toList.isPrefixOf name.toList

/-- An action on the file system of the shell. -/
def onFiles {α : Type} (act : Filing σ α) (shell : Shell σ) : Except StorageError α × Shell σ :=
  let (result, fs) := act.run.run shell.session.fs
  (result, { shell with session := { shell.session with fs } })

/-! ### Opening -/

/-- The environment of a new session. -/
def defaultEnvironment (pwd : String) : Keyed String :=
  Keyed.ofList [("HOME", Config.defaultHome), ("PATH", "/bin:/usr/bin"), ("USER", "user"),
    ("SHELL", "/bin/vshell"), ("PWD", pwd), ("TERM", "xterm")]

/-- Creates a home directory if nothing is there; it does not matter if that cannot be done. -/
def ensureHome (home : String) : Filing σ Unit := do
  if (← FileSystem.info home).isNone then
    let _ ← FileSystem.mkdirAll home

/-- A shell over a file system, in the directory where that is. -/
def open_ (fs : FileSystem σ) (commands : Keyed (Command σ)) : Except StorageError (Shell σ) :=
  let usage := commands.map fun (name, command) => (name, command.usage)
  let session := ⟨fs, defaultEnvironment fs.cwd, [], true, Config.defaultHostname, usage⟩
  let (result, shell) := onFiles (ensureHome Config.defaultHome) ⟨session, commands⟩
  result.map fun _ => shell

/-- Starts a session in its home directory, if that can be entered. -/
def enterHome (home : String) (shell : Shell σ) : Except StorageError (Shell σ) :=
  let act : Filing σ Bool := do
    ensureHome home
    FileSystem.cd home
  let (result, shell) := shell.onFiles act
  result.map fun entered => if entered then { shell with session := syncPwd shell.session } else shell

/-- The file system that a configuration asks for. -/
def configuredFiles (registry : Registry) (now : Timestamp) (config : Config) :
    Except StorageError (FileSystem Provider) := do
  let fs ← FileSystem.open_ now (← registry.create now config.provider config.args)
  match config.security with
  | none => return fs
  | some security =>
    let (result, fs) := (FileSystem.applyPolicy security.policy).run.run fs
    result.map fun _ => fs

/-- The shell that a configuration asks for. -/
def ofConfig (registry : Registry) (now : Timestamp) (config : Config) :
    Except StorageError (Shell Provider) := do
  let shell ← open_ (← configuredFiles registry now config) builtin
  let shell := { shell with session := { shell.session with hostname := config.hostname } }
  let home := shell.session.fs.resolve config.home
  let assigned := ("HOME", home) :: config.environment
  enterHome home (assigned.foldl (fun shell (name, value) => shell.assign name value) shell)

end Shell
end VirtualShell
