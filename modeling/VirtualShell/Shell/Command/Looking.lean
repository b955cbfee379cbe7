import VirtualShell.Shell.Arguments

/-! The commands that move through the file system and show it. -/
namespace VirtualShell.Command
variable {σ : Type} [Storage σ]

open Running

/-- Changes the working directory. -/
def cd : Command σ where
  name := "cd"
  usage := "cd [DIR] - change the working directory (default: $HOME)"
  run arguments := do
    let target ← match arguments with
      | [] => variableOr "HOME" "/"
      | [dir] => pure dir
      | _ => fail "cd: too many arguments"
    if ← onFiles (FileSystem.cd target) then return ""
    let reason := if ← onFiles (FileSystem.exists_ target) then "Not a directory"
      else "No such file or directory"
    fail s!"cd: {target}: {reason}"

/-- Shows the working directory. -/
def pwd : Command σ where
  name := "pwd"
  usage := "pwd - print the working directory"
  run _ := return (← get).fs.cwd

/-- A text with blanks before it, up to a width. -/
def padLeft (width : Nat) (text : String) : String :=
  .ofList (List.replicate (width - text.length) ' ') ++ text

/-- A line on a name of a directory, with its mode, owner and size. -/
def longLine (mode : String) (size : Nat) (name : String) : Running σ String := do
  let owner ← variableOr "USER" "user"
  return s!"{mode} 1 {owner} staff {padLeft 8 (toString size)} {name}"

def directoryMode : String := "drwxr-xr-x"

def longEntry (dir name : String) : Running σ String := do
  match ← onFiles (FileSystem.info (Path.join dir name)) with
  | some node =>
    if node.isDir then longLine directoryMode 0 name
    else longLine "-rw-r--r--" (node.size.getD 0).toNat name
  | none => longLine "----------" 0 name

/-- Shows a directory or a file. -/
def ls : Command σ where
  name := "ls"
  usage := "ls [-l] [-a] [PATH] - list directory contents"
  run arguments := do
    let parsed ← Arguments.read "ls" ['l', 'a'] arguments
    let target := parsed.operands.head?.getD "."
    let full := (← get).fs.resolve target
    match ← onFiles (FileSystem.info full) with
    | none => fail s!"ls: cannot access '{target}': No such file or directory"
    | some node =>
      if !node.isDir then
        let (dir, name) := Path.split full
        if parsed.has 'l' then longEntry dir name else return target
      else
        let names ← onFiles (FileSystem.ls full)
        let names := if parsed.has 'a' then "." :: ".." :: names
          else names.filter fun name => name.toList.head? != some '.'
        if !parsed.has 'l' then return " ".intercalate names
        let lines ← names.mapM fun name =>
          if name == "." || name == ".." then longLine directoryMode 0 name else longEntry full name
        return "\n".intercalate lines

/-- What is looked for, and where. -/
structure Search where
  start : Option String
  pattern : Option String

/-- Reads the arguments of a search one after the other. -/
def readSearch (search : Search) : List String → Running σ Search
  | [] => return search
  | ["-name"] => fail "find: missing argument to `-name'"
  | "-name" :: pattern :: rest => readSearch { search with pattern := some pattern } rest
  | argument :: rest =>
    if argument.toList.head? == some '-' then fail s!"find: unknown predicate `{argument}'"
    else if search.start.isNone then readSearch { search with start := some argument } rest
    else fail s!"find: paths must precede expression: `{argument}'"

/-- Shows the paths below a directory. -/
def find : Command σ where
  name := "find"
  usage := "find [PATH] [-name PATTERN] - list paths below PATH, optionally matching a glob"
  run arguments := do
    let search ← readSearch ⟨none, none⟩ arguments
    let start := search.start.getD "."
    if !(← onFiles (FileSystem.isDir start)) then fail s!"find: '{start}': No such file or directory"
    let found ← match search.pattern with
      | none => onFiles (FileSystem.find start true)
      | some pattern => do
        match ← attempt (FileSystem.search start pattern true) with
        | .ok found => pure found
        | .error (.invalidPattern reason) => fail s!"find: {reason}"
        | .error e => throw (.storage e)
    let troubles := found.skipped.map fun (path, reason) => s!"find: '{path}': {reason}"
    return "\n".intercalate (found.paths ++ troubles)

end VirtualShell.Command
