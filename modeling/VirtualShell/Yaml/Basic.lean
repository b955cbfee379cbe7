/-!
YAML documents as trees of nodes, before any scalar is given a type. A node may stand for another one by
the number of an anchor.
-/
namespace VirtualShell

/-- Why a text is no YAML document, or not the document that is wanted. -/
inductive YamlError where
  | badCharacter (c : Char)
  | badLexeme (problem : String)
  | badStructure (problem : String)
  | unknownAnchor (name : String)
  | severalDocuments
  | tooDeep
  | tooManyAliases
  | repeatedKey (key : String)
  | mismatch (wanted : String)
  deriving DecidableEq, Repr

def YamlError.message : YamlError → String
  | .badCharacter _ => "control characters are not allowed"
  | .badLexeme problem => problem
  | .badStructure problem => problem
  | .unknownAnchor name => s!"unknown anchor: {name}"
  | .severalDocuments => "more than one document"
  | .tooDeep => "recursion limit exceeded"
  | .tooManyAliases => "repetition limit exceeded"
  | .repeatedKey key => s!"duplicate key: {key}"
  | .mismatch wanted => s!"expected {wanted}"

namespace Yaml

/-- How a scalar is written. -/
inductive Style where
  | plain
  | single
  | double
  | literal
  | folded
  deriving DecidableEq, Repr

/-- A tag by its bytes, which need not make up characters. -/
abbrev Tag := List UInt8

def Tag.ofString (text : String) : Tag := text.toUTF8.toList

structure Scalar where
  text : String
  style : Style
  tag : Option Tag
  deriving DecidableEq, Repr

/-- Nothing, where a scalar could stand. -/
def Scalar.empty : Scalar := ⟨"", .plain, none⟩

inductive Node where
  | scalar (scalar : Scalar)
  /-- Another occurrence of the node with this anchor. -/
  | alias (anchor : Nat)
  | sequence (tag : Option Tag) (items : List Node)
  | mapping (tag : Option Tag) (entries : List (Node × Node))
  /-- A document without content. -/
  | void
  deriving Repr, Inhabited

mutual

/-- The number of steps it takes to go through a node: one for a leaf, a first and a last one else. -/
def Node.steps : Node → Nat
  | .sequence _ items => 2 + stepsOfItems items
  | .mapping _ entries => 2 + stepsOfEntries entries
  | _ => 1

def stepsOfItems : List Node → Nat
  | [] => 0
  | item :: rest => item.steps + stepsOfItems rest

def stepsOfEntries : List (Node × Node) → Nat
  | [] => 0
  | (key, value) :: rest => key.steps + value.steps + stepsOfEntries rest

end

structure Document where
  root : Node
  /-- The anchored nodes by number, the one that counts first. -/
  anchors : List (Nat × Node)
  deriving Repr

end Yaml
end VirtualShell
