import Std.Time.DateTime.Timestamp
import VirtualShell.CommandLine.Run

/-!
The program: it gives the command line the files that it asks for, and writes back the databases. Lines are
answered as they are entered.
-/
namespace VirtualShell.CommandLine

/-- The time by the clock of the machine. -/
def clock : IO Timestamp := do
  return (← Std.Time.Timestamp.now).toMillisecondsSinceUnixEpoch.toInt.toNat.toUInt64

/-- Adds a file to a host, if it can be read. -/
def load (host : Host) (path : String) : IO Host := do
  try
    return host.reach path (Host.fileOfBytes (← IO.FS.readBinFile path))
  catch _ => return host

/-- Adds a database file to a host; it is made if that is asked for and can be done. -/
def loadDatabase (host : Host) (name : DatabaseName) : IO Host := do
  match host.databasePath? name with
  | none => return host
  | some path =>
    try
      if name.access == .making then IO.FS.withFile path .append fun _ => return ()
      load host path
    catch _ => return host

/-- The host with all the files that the options ask for. -/
def hostFor (options : Options) : IO Host := do
  let host ← options.files.foldlM load ⟨toString (← IO.currentDir), [], []⟩
  match (prepare host options).bind fun (config, _) => database? config with
  | some name => loadDatabase host name
  | none => return host

/-- Writes the databases of a host to their files. -/
def save (host : Host) : IO Unit :=
  host.files.forM fun (path, file) =>
    match file with
    | .database rows => IO.FS.writeFile path (Host.databaseText rows)
    | _ => return ()

/-- Answers lines as they are entered. -/
partial def converse (input output : IO.FS.Stream) (shell : Shell Provider) : IO (Shell Provider) := do
  output.putStr shell.prompt
  output.flush
  let line ← input.getLine
  if line.isEmpty then
    output.putStr "\n"
    return shell
  let (answer, shell) := shell.execute line
  output.putStr (printed answer)
  if shell.session.running then converse input output shell else return shell

/-- Ends the program. -/
def finish (ending : Ending) : IO UInt32 := do
  (← IO.getStdout).putStr ending.stdout
  save ending.host
  return ending.code

end VirtualShell.CommandLine

open VirtualShell CommandLine in
def main (arguments : List String) : IO UInt32 := do
  let now ← clock
  match parse arguments with
  | .error _ => finish (run ⟨"/", [], []⟩ now arguments "")
  | .ok options =>
    let host ← hostFor options
    match options.isInteractive, (configure host options).bind (openShell host now) with
    | true, some shell =>
      save (closeShell host (← converse (← IO.getStdin) (← IO.getStdout) shell))
      return 0
    | _, _ => finish (run host now arguments "")
