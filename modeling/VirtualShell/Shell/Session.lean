import VirtualShell.FileSystem.Basic
import VirtualShell.Keyed

/-! What a session of the shell holds, and what a command is that runs in one. -/
namespace VirtualShell

structure Session (σ : Type) where
  fs : FileSystem σ
  /-- The environment, by name. -/
  environ : Keyed String
  /-- The lines entered so far, the oldest first. -/
  history : List String
  /-- Whether the session still takes input. -/
  running : Bool
  hostname : String
  /-- The commands there are, each with its usage. -/
  usage : Keyed String

/-- How a command can end without output. -/
inductive CommandError where
  /-- It could not do what was asked, and says why. -/
  | failed (reason : String)
  /-- The store below it failed. -/
  | storage (cause : StorageError)
  /-- It broke off, with a reason if it left one. -/
  | brokenOff (reason : Option String)
  deriving DecidableEq, Repr

/-- What a session shows of an error. -/
def CommandError.message : CommandError → String
  | .failed reason => reason
  | .storage cause => "storage error: " ++ cause.message
  | .brokenOff reason => "Error executing command: " ++ reason.getD "command panicked"

/-- An action in a session. -/
abbrev Running (σ : Type) : Type → Type := ExceptT CommandError (StateM (Session σ))

structure Command (σ : Type) where
  name : String
  /-- One line on how the command is used. -/
  usage : String
  /-- The output for some arguments. -/
  run : List String → Running σ String

namespace Running
variable {σ α : Type}

def fail (reason : String) : Running σ α := throw (.failed reason)

/-- An action on the file system, with its error as it is. -/
def attempt (act : Filing σ α) : Running σ (Except StorageError α) :=
  ExceptT.mk fun session =>
    let (result, fs) := act.run.run session.fs
    (.ok result, { session with fs })

/-- An action on the file system. -/
def onFiles (act : Filing σ α) : Running σ α := do
  match ← attempt act with
  | .ok x => return x
  | .error e => throw (.storage e)

/-- A variable of the environment, or what stands for it if it is not set. -/
def variableOr (name absent : String) : Running σ String :=
  return (Keyed.find? name (← get).environ).getD absent

def setVariable (name value : String) : Running σ Unit :=
  modify fun session => { session with environ := Keyed.insert name value session.environ }

end Running
end VirtualShell
