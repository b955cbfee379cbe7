import VirtualShell.Agent.Schedule
import VirtualShell.CommandLine.Host
import VirtualShell.CommandLine.Options

/-!
What the command line does: it runs one line, a script, an agent, or whatever lines it is given. Errors show
in the exit code alone: 2 for arguments that are not understood, 1 for everything else.
-/
namespace VirtualShell.CommandLine

structure Ending where
  stdout : String
  code : UInt32
  host : Host

/-- Output as it is printed: on lines of its own, unless there is none. -/
def printed (output : String) : String := if output.isEmpty then "" else output ++ "\n"

/-- The configuration that the options ask for. -/
def configure (host : Host) (options : Options) : Option Config := do
  let config ← match options.config with
    | none => some Config.standard
    | some path => (Config.ofYaml (← host.readText? path)).toOption
  let security := match options.security with
    | some profile => some ⟨profile, (config.security.map SecurityConfig.overrides).getD .none⟩
    | none => config.security
  return { config with
    provider := options.provider.getD config.provider
    args := options.providerArgs.foldl (fun args arg => Keyed.insert arg.1 arg.2 args) config.args
    security }

/-- The configuration, and the agent, that the options ask for. -/
def prepare (host : Host) (options : Options) : Option (Config × Option Agent.Definition) := do
  let config ← configure host options
  match options.agent with
  | none => return (config, none)
  | some path =>
    let definition ← (Agent.Definition.ofText (← host.readText? path)).toOption
    return (config, some definition)

/-- The database that a configuration asks for. -/
def database? (config : Config) : Option DatabaseName :=
  if config.provider == "sqlite" then (Constructor.databaseName config.args).toOption else none

/-- The shell that a configuration asks for. -/
def openShell (host : Host) (now : Timestamp) (config : Config) : Option (Shell Provider) :=
  (Shell.ofConfig (Registry.builtin host.databases) now config).toOption

/-- Keeps what a shell leaves behind. -/
def closeShell (host : Host) (shell : Shell Provider) : Host := host.keep shell.session.fs.mount.store

/-- The lines of a script that are to be run. -/
def scriptLines (script : String) : List String :=
  ((Text.linesOf script).map Text.trimmed).filter fun line =>
    !line.isEmpty && line.toList.head? != some '#'

variable {σ : Type} [Storage σ]

/-- Runs lines until they or the session end. -/
def runLines : List String → Shell σ → String × Shell σ
  | [], shell => ("", shell)
  | line :: rest, shell =>
    let (output, shell) := shell.execute line
    if shell.session.running then
      let (later, shell) := runLines rest shell
      (printed output ++ later, shell)
    else (printed output, shell)

/-- Runs lines as they are entered, with a prompt before each. -/
def interact : List String → Shell σ → String × Shell σ
  | [], shell => (shell.prompt ++ "\n", shell)
  | line :: rest, shell =>
    let prompt := shell.prompt
    let (output, shell) := shell.execute line
    if shell.session.running then
      let (later, shell) := interact rest shell
      (prompt ++ printed output ++ later, shell)
    else (prompt ++ printed output, shell)

/-- The lines of an input, of which the last need not be ended. -/
def inputLines (input : String) : List String :=
  let lines := Text.linesOf input
  if lines.getLast? == some "" then lines.dropLast else lines

/-- Runs an agent, in the foreground or the background; what is printed, whether it was completed. -/
def runAgent (config : Config) (options : Options) (definition : Agent.Definition) (shell : Shell σ) :
    String × Bool × Shell σ :=
  let act : Agent.Scheduling σ String := do
    let job ← Agent.Schedule.managing fun _ => Agent.Manager.create definition options.background
    let input := options.input.getD ""
    let reply ← if options.background then do
        Agent.Schedule.await (← Agent.Schedule.spawn job.number input)
      else do
        pure (some (← Agent.Schedule.run job.number input))
    match reply with
    | some (.ok reply) => return reply
    | _ => return ""
  let (reply, schedule) := act.run (.new (.ofConfig shell config.agents))
  let completed := schedule.manager.jobs.any fun job => job.state == .completed
  (if completed then printed reply else "", completed, schedule.manager.shell)

/-- Does what the options ask for, on an open shell. -/
def perform (host : Host) (config : Config) (definition : Option Agent.Definition) (options : Options)
    (input : String) (shell : Shell Provider) : Ending :=
  let ending (stdout : String) (code : UInt32) (shell : Shell Provider) : Ending :=
    ⟨stdout, code, closeShell host shell⟩
  match definition, options.command, options.script with
  | some definition, _, _ =>
    let (stdout, completed, shell) := runAgent config options definition shell
    ending stdout (if completed then 0 else 1) shell
  | none, some command, _ =>
    let (output, shell) := shell.execute command
    ending (printed output) 0 shell
  | none, none, some path =>
    match host.readText? path with
    | none => ending "" 1 shell
    | some script =>
      let (stdout, shell) := runLines (scriptLines script) shell
      ending stdout 0 shell
  | none, none, none =>
    let (stdout, shell) := interact (inputLines input) shell
    ending stdout 0 shell

/-- Runs the command line with some arguments and input. -/
def run (host : Host) (now : Timestamp) (arguments : List String) (input : String) : Ending :=
  match parse arguments with
  | .error .help => ⟨usage, 0, host⟩
  | .error .misuse => ⟨"", 2, host⟩
  | .ok options =>
    match prepare host options with
    | none => ⟨"", 1, host⟩
    | some (config, definition) =>
      let host := (database? config).elim host host.makeDatabase
      match openShell host now config with
      | none => ⟨"", 1, host⟩
      | some shell => perform host config definition options input shell

end VirtualShell.CommandLine
