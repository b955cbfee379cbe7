/-!
POSIX-style paths. A path in normal form starts with a slash, has no empty, `.` or `..` component and
no trailing slash, the root apart. The component list is the view that every operation is explained by.
-/
namespace VirtualShell.Path

/-- Components as single names, without slashes. -/
abbrev Component := List Char

/-- Reads one component onto the stack of those before it; `..` at the root does nothing. -/
def push (stack : List Component) : Component → List Component
  | [] => stack
  | ['.'] => stack
  | ['.', '.'] => stack.tail
  | name => name :: stack

/-- The components a path leads through, outermost first, once `.` and `..` are worked out. -/
def components (path : List Char) : List Component :=
  ((path.splitOn '/').foldl push []).reverse

/-- The normal form of a component list. -/
def render : List Component → List Char
  | [] => ['/']
  | [name] => '/' :: name
  | name :: rest => '/' :: name ++ render rest

/-- The components of a path as text. -/
def segments (path : String) : List String := (components path.toList).map .ofList

/-- The normal form of a path; a relative path is read from the root. -/
def normalize (path : String) : String := .ofList (render (components path.toList))

/-- A path read from a working directory, in normal form. -/
def resolve (cwd path : String) : String :=
  if path.toList.head? = some '/' then normalize path else normalize (cwd ++ "/" ++ path)

/-- The directory of a path and its last component; the root has an empty last component. -/
def split (path : String) : String × String :=
  let parts := components path.toList
  (.ofList (render parts.dropLast), .ofList (parts.getLast?.getD []))

/-- Text without trailing slashes. -/
def trimSlashes (s : List Char) : List Char := (s.reverse.dropWhile (· == '/')).reverse

/-- A directory path extended by one name; an empty name leaves the directory. -/
def join (parent name : String) : String :=
  if name.isEmpty then normalize parent
  else if parent.isEmpty || parent == "/" then "/" ++ name
  else .ofList (trimSlashes parent.toList) ++ "/" ++ name

/-- The last component of a path, empty for the root. -/
def basename (path : String) : String := (split path).2

/-- The number of components; the root has depth 0. -/
def depth (path : String) : Nat := (components path.toList).length

/-- Whether `path`, taken as written, is the directory `dir` or continues it after a slash. -/
def isWithin (path dir : String) : Bool :=
  let dir := normalize dir
  if dir == "/" then true
  else path == dir || (dir.toList ++ ['/']).isPrefixOf path.toList

/-- Whether a text can stand as the name of a node below the root. -/
def isName (name : String) : Bool :=
  !(name.isEmpty || name.toList.contains '/' || name == "." || name == "..")

end VirtualShell.Path
