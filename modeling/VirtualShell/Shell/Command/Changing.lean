import VirtualShell.Shell.Arguments

/-! The commands that change the file system. Each goes through its operands until one cannot be done. -/
namespace VirtualShell.Command
variable {σ : Type} [Storage σ]

open Running

/-- Creates directories. -/
def mkdir : Command σ where
  name := "mkdir"
  usage := "mkdir [-p] DIR... - create directories (-p: with parents, no error if existing)"
  run arguments := do
    let parsed ← Arguments.read "mkdir" ['p'] arguments
    if parsed.operands.isEmpty then fail "mkdir: missing operand"
    parsed.operands.forM fun dir => do
      let created ← onFiles (if parsed.has 'p' then FileSystem.mkdirAll dir else FileSystem.mkdir dir)
      if !created then fail s!"mkdir: cannot create directory '{dir}'"
    return ""

/-- Creates files, or renews their times. -/
def touch : Command σ where
  name := "touch"
  usage := "touch FILE... - create empty files or update their timestamps"
  run arguments := do
    if arguments.isEmpty then fail "touch: missing file operand"
    arguments.forM fun file => do
      if !(← onFiles (FileSystem.touch file)) then fail s!"touch: cannot touch '{file}'"
    return ""

/-- Removes one operand of `rm`. -/
def removeOne (recursive force : Bool) (target : String) : Running σ Unit := do
  match ← onFiles (FileSystem.info target) with
  | none => if !force then fail s!"rm: cannot remove '{target}': No such file or directory"
  | some node =>
    if node.isDir && !recursive then fail s!"rm: cannot remove '{target}': Is a directory"
    let removed ← onFiles (if node.isDir then FileSystem.rmRecursive target else FileSystem.rm target)
    if !removed then fail s!"rm: cannot remove '{target}'"

/-- Removes files, and directories with all they hold if told so. -/
def rm : Command σ where
  name := "rm"
  usage := "rm [-r] [-f] PATH... - remove files (-r: directories and their contents)"
  run arguments := do
    let parsed ← Arguments.read "rm" ['r', 'R', 'f'] arguments
    let force := parsed.has 'f'
    if parsed.operands.isEmpty && !force then fail "rm: missing operand"
    parsed.operands.forM (removeOne (parsed.has 'r' || parsed.has 'R') force)
    return ""

/-- Removes a directory, or tells why that cannot be done. -/
def removeDir (dir : String) : Running σ (Option String) := do
  match ← onFiles (FileSystem.info dir) with
  | none => return some "No such file or directory"
  | some node =>
    if !node.isDir then return some "Not a directory"
    if !(← onFiles (FileSystem.ls dir)).isEmpty then return some "Directory not empty"
    if !(← onFiles (FileSystem.rmdir dir)) then return some "Operation not permitted"
    return none

/-- Removes empty directories. -/
def rmdir : Command σ where
  name := "rmdir"
  usage := "rmdir DIR... - remove empty directories"
  run arguments := do
    if arguments.isEmpty then fail "rmdir: missing operand"
    arguments.forM fun dir => do
      match ← removeDir dir with
      | some reason => fail s!"rmdir: failed to remove '{dir}': {reason}"
      | none => return ()
    return ""

/--
The sources and the target among the arguments of a command. Every source exists, and several of them have a
directory as their target.
-/
def sourcesAndTarget (name : String) (arguments : List String) : Running σ (List String × String) := do
  let parsed ← Arguments.read name ['r'] arguments
  let sources := parsed.operands.dropLast
  match parsed.operands.getLast? with
  | none => fail s!"{name}: missing operand"
  | some target =>
    if sources.isEmpty then fail s!"{name}: missing destination file operand after '{target}'"
    if sources.length > 1 then
      if !(← onFiles (FileSystem.isDir target)) then fail s!"{name}: target '{target}' is not a directory"
    sources.forM fun source => do
      if !(← onFiles (FileSystem.exists_ source)) then
        fail s!"{name}: cannot stat '{source}': No such file or directory"
    return (sources, target)

/-- A command that takes sources to a target, one or several at once. -/
def transfer (name verb : String) (one : String → String → Filing σ Bool)
    (many : List String → String → Filing σ Bool) (arguments : List String) : Running σ String := do
  let (sources, target) ← sourcesAndTarget name arguments
  let done ← onFiles (match sources with
    | [source] => one source target
    | sources => many sources target)
  if !done then
    let named := "' '".intercalate sources
    fail s!"{name}: cannot {verb} '{named}' to '{target}'"
  return ""

/-- Copies files and directory trees. -/
def cp : Command σ where
  name := "cp"
  usage := "cp SOURCE... DEST - copy files and directories"
  run := transfer "cp" "copy" FileSystem.cp FileSystem.cpMany

/-- Moves files and directory trees. -/
def mv : Command σ where
  name := "mv"
  usage := "mv SOURCE... DEST - move or rename files and directories"
  run := transfer "mv" "move" FileSystem.mv FileSystem.mvMany

end VirtualShell.Command
