import VirtualShell.Storage.Basic

/-! Walks through a directory tree, depth first. What cannot be read is passed over and reported. -/
namespace VirtualShell

structure Traversal where
  /-- The paths found; a directory comes before what it holds. -/
  paths : List String
  /-- What could not be read, with the reason. -/
  skipped : List (String × String)
  deriving DecidableEq, Repr

namespace Traversal

def empty : Traversal := ⟨[], []⟩

def append (a b : Traversal) : Traversal := ⟨a.paths ++ b.paths, a.skipped ++ b.skipped⟩

/-- Whether everything could be read. -/
def isComplete (walk : Traversal) : Bool := walk.skipped.isEmpty

end Traversal

/-- The outcome of an action as a value. -/
def Storing.caught {σ α : Type} (act : Storing σ α) : Storing σ (Except StorageError α) :=
  ExceptT.mk fun store =>
    let (result, store) := act.run.run store
    (.ok result, store)

namespace Storage
variable {σ : Type} [Storage σ]

/-- The walks from the given starting points, one after the other. -/
def walkEach (walk : String → Storing σ Traversal) : List String → Storing σ Traversal
  | [] => return .empty
  | name :: rest => do
    let here ← walk name
    return here.append (← walkEach walk rest)

/-- What lies below a directory and has a name that is wanted; only its children unless `deep`. -/
def walk (deep : Bool) (wanted : String → Bool) : Nat → String → Storing σ Traversal
  | 0, _ => return .empty
  | fuel + 1, dir => do
    match ← Storing.caught (list dir) with
    | .error e => return ⟨[], [(dir, e.message)]⟩
    | .ok names =>
      walkEach (fun name => do
        let child := Path.join dir name
        let here : Traversal := ⟨if wanted name then [child] else [], []⟩
        if !deep then return here
        match ← Storing.caught (info child) with
        | .error e => return here.append ⟨[], [(child, e.message)]⟩
        | .ok (some node) =>
          if node.isDir then return here.append (← walk deep wanted fuel child) else return here
        | .ok none => return here) names

end Storage
end VirtualShell
