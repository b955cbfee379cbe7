import VirtualShell.Keyed
import VirtualShell.Number.Shortest

/-!
JSON values. Objects are keyed lists, so two objects with the same members are one value whatever the
order they were written in.
-/
namespace VirtualShell

/-- JSON numbers: whole numbers of 64 bits, and floating point for all others. -/
inductive JsonNumber where
  | natural (n : UInt64)
  /-- The number `-n`, with `n` from 1 to `2 ^ 63`. -/
  | negative (n : UInt64)
  | float (x : Number.Binary64)
  deriving DecidableEq, Repr

inductive Json where
  | null
  | bool (b : Bool)
  | number (n : JsonNumber)
  | string (s : String)
  | array (items : List Json)
  | object (members : List (String × Json))
  deriving Repr, Inhabited

namespace Json

def ofNat (n : Nat) : Json := .number (.natural n.toUInt64)

/-- The member of an object under a key. -/
def member? (key : String) : Json → Option Json
  | .object members => Keyed.find? key members
  | _ => none

/-- The number as an unsigned 64-bit integer, if it was written as one. -/
def natural? : Json → Option UInt64
  | .number (.natural n) => some n
  | _ => none

def string? : Json → Option String
  | .string s => some s
  | _ => none

def bool? : Json → Option Bool
  | .bool b => some b
  | _ => none

def items? : Json → Option (List Json)
  | .array items => some items
  | _ => none

/-- Equality of numbers; a whole number never equals a floating-point one. -/
def sameNumber : JsonNumber → JsonNumber → Bool
  | .float x, .float y => x.same y
  | m, n => m == n

mutual

/-- Equality of values. -/
def same : Json → Json → Bool
  | .null, .null => true
  | .bool a, .bool b => a == b
  | .number m, .number n => sameNumber m n
  | .string s, .string t => s == t
  | .array xs, .array ys => sameItems xs ys
  | .object xs, .object ys => sameMembers xs ys
  | _, _ => false

def sameItems : List Json → List Json → Bool
  | [], [] => true
  | x :: xs, y :: ys => same x y && sameItems xs ys
  | _, _ => false

def sameMembers : List (String × Json) → List (String × Json) → Bool
  | [], [] => true
  | (k, x) :: xs, (l, y) :: ys => k == l && same x y && sameMembers xs ys
  | _, _ => false

end

end Json
end VirtualShell
