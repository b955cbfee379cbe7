import VirtualShell.Shell.Session

/-! Arguments of a command as single-letter flags and operands: `-la` is the two flags `l` and `a`. -/
namespace VirtualShell

structure Arguments where
  flags : List Char
  operands : List String
  deriving DecidableEq, Repr

namespace Arguments

/-- The flags in an argument, if it holds any. -/
def flagsOf? (argument : String) : Option (List Char) :=
  match argument.toList with
  | '-' :: c :: rest => if c == '-' then none else some (c :: rest)
  | _ => none

/-- Parts arguments; a dash by itself is an operand, and so is all that follows `--`. -/
def parse : List String → Arguments
  | [] => ⟨[], []⟩
  | argument :: rest =>
    if argument == "--" then ⟨[], rest⟩
    else match flagsOf? argument with
      | some flags => { parse rest with flags := flags ++ (parse rest).flags }
      | none => { parse rest with operands := argument :: (parse rest).operands }

def has (arguments : Arguments) (flag : Char) : Bool := arguments.flags.contains flag

/-- The least flag that is not among those allowed. -/
def unknown? (allowed : List Char) (arguments : Arguments) : Option Char :=
  let least (found : Option Char) (flag : Char) : Option Char :=
    match found with
    | none => some flag
    | some other => some (if flag < other then flag else other)
  (arguments.flags.filter fun flag => !allowed.contains flag).foldl least none

/-- The arguments of a command that knows only the allowed flags. -/
def read {σ : Type} (command : String) (allowed : List Char) (arguments : List String) :
    Running σ Arguments := do
  let parsed := parse arguments
  match parsed.unknown? allowed with
  | some flag => Running.fail s!"{command}: invalid option -- '{flag}'"
  | none => return parsed

end Arguments
end VirtualShell
