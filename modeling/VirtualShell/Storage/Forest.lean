import VirtualShell.Node.Basic

/-!
Directory trees as linked siblings. A forest is what a directory holds; its names rise strictly.
-/
namespace VirtualShell

/-- The entries of a directory: one entry, then its later siblings. -/
inductive Forest where
  | nil
  | file (name : String) (node : Node) (content : String) (next : Forest)
  | dir (name : String) (node : Node) (below : Forest) (next : Forest)
  deriving Repr, DecidableEq, Inhabited

/-- One entry by itself. -/
inductive Entry where
  | file (node : Node) (content : String)
  | dir (node : Node) (below : Forest)
  deriving Repr, DecidableEq

namespace Forest

def names : Forest → List String
  | nil => []
  | file name _ _ next => name :: names next
  | dir name _ _ next => name :: names next

/-- The entry of a name. -/
def find? (name : String) : Forest → Option Entry
  | nil => none
  | file n node content next => if n = name then some (.file node content) else find? name next
  | dir n node below next => if n = name then some (.dir node below) else find? name next

/-- An entry in front of its siblings. -/
def link (name : String) : Entry → Forest → Forest
  | .file node content, next => .file name node content next
  | .dir node below, next => .dir name node below next

/-- Puts an entry under a name, in its place among the siblings or instead of the one there. -/
def put (name : String) (entry : Entry) : Forest → Forest
  | nil => link name entry nil
  | file n node content next =>
    if n = name then link name entry next
    else if name < n then link name entry (file n node content next)
    else file n node content (put name entry next)
  | dir n node below next =>
    if n = name then link name entry next
    else if name < n then link name entry (dir n node below next)
    else dir n node below (put name entry next)

/-- Takes the entry of a name out. -/
def erase (name : String) : Forest → Forest
  | nil => nil
  | file n node content next => if n = name then next else file n node content (erase name next)
  | dir n node below next => if n = name then next else dir n node below (erase name next)

/-- How many entries a forest holds at all depths. -/
def count : Forest → Nat
  | nil => 0
  | file _ _ _ next => 1 + count next
  | dir _ _ below next => 1 + count below + count next

/-- The files at all depths, and their bytes. -/
def files : Forest → Nat × Nat
  | nil => (0, 0)
  | file _ _ content next => ((files next).1 + 1, (files next).2 + content.utf8ByteSize)
  | dir _ _ below next => ((files below).1 + (files next).1, (files below).2 + (files next).2)

theorem find?_link (name n : String) (entry : Entry) (next : Forest) :
    find? n (link name entry next) = if name = n then some entry else find? n next := by
  cases entry <;> simp [link, find?]

theorem find?_put (name n : String) (entry : Entry) (forest : Forest) :
    find? n (put name entry forest) = if name = n then some entry else find? n forest := by
  induction forest with
  | nil => simp [put, find?_link, find?]
  | file a node content next ih =>
    by_cases ha : a = name
    · subst ha
      by_cases hn : a = n <;> simp [put, find?_link, find?, hn]
    · by_cases hlt : name < a
      · simp [put, find?_link, find?, ha, hlt]
      · by_cases hn : a = n
        · subst hn
          simp [put, find?, ha, hlt, Ne.symm ha]
        · simp [put, find?, ha, hlt, hn, ih]
  | dir a node below next _ ih =>
    by_cases ha : a = name
    · subst ha
      by_cases hn : a = n <;> simp [put, find?_link, find?, hn]
    · by_cases hlt : name < a
      · simp [put, find?_link, find?, ha, hlt]
      · by_cases hn : a = n
        · subst hn
          simp [put, find?, ha, hlt, Ne.symm ha]
        · simp [put, find?, ha, hlt, hn, ih]

end Forest

namespace Entry

def node : Entry → Node
  | .file node _ => node
  | .dir node _ => node

def withNode (entry : Entry) (node : Node) : Entry :=
  match entry with
  | .file _ content => .file node content
  | .dir _ below => .dir node below

/-- The entry at the end of a chain of names. -/
def find? : List String → Entry → Option Entry
  | [], entry => some entry
  | _ :: _, .file .. => none
  | part :: rest, .dir _ below =>
    match below.find? part with
    | some child => find? rest child
    | none => none

/-- The tree with the entry at the end of a chain of names replaced, unless it is missing or `f` refuses. -/
def alter (f : Entry → Option Entry) : List String → Entry → Option Entry
  | [], entry => f entry
  | _ :: _, .file .. => none
  | part :: rest, .dir node below =>
    match below.find? part with
    | some child => (alter f rest child).map fun child => .dir node (below.put part child)
    | none => none

end Entry
end VirtualShell
