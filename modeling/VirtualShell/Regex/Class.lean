import VirtualShell.Text.CodeRanges

/-!
Character classes as sorted ranges that neither meet nor touch. Letters have two cases in ASCII alone.
-/
namespace VirtualShell.Regex

open Text (CodeRanges)

def maxCodePoint : Nat := 0x10FFFF

/-- Puts a range in front of sorted ones, joined with those it meets or touches. -/
def joinRange (range : Nat × Nat) : CodeRanges → CodeRanges
  | [] => [range]
  | next :: rest =>
    if next.1 ≤ range.2 + 1 then joinRange (range.1, max range.2 next.2) rest
    else range :: joinRange next rest

/-- The same code points in sorted ranges that are apart from each other. -/
def canonical (ranges : CodeRanges) : CodeRanges :=
  match ranges.mergeSort fun a b => a.1 ≤ b.1 with
  | [] => []
  | first :: rest => joinRange first rest

/-- The code points outside sorted ranges, from a first one on. -/
def gaps (first : Nat) : CodeRanges → CodeRanges
  | [] => if first ≤ maxCodePoint then [(first, maxCodePoint)] else []
  | (low, high) :: rest =>
    let later := gaps (high + 1) rest
    if first < low then (first, low - 1) :: later else later

/-- The code points outside a class. -/
def complement (ranges : CodeRanges) : CodeRanges := gaps 0 ranges

/--
The letters of a range in their other case. A range that holds small letters gives capitals only, even if
it holds capitals too.
-/
def otherCase (range : Nat × Nat) : Option (Nat × Nat) :=
  if range.1 ≤ 122 && 97 ≤ range.2 then some (max range.1 97 - 32, min range.2 122 - 32)
  else if range.1 ≤ 90 && 65 ≤ range.2 then some (max range.1 65 + 32, min range.2 90 + 32)
  else none

/-- A class with the other case of each of its ranges. -/
def foldCase (ranges : CodeRanges) : CodeRanges := canonical (ranges ++ ranges.filterMap otherCase)

def digits : CodeRanges := [(48, 57)]

def spaces : CodeRanges := [(9, 13), (32, 32)]

def wordChars : CodeRanges := [(48, 57), (65, 90), (95, 95), (97, 122)]

/-- The ASCII classes that have names. -/
def namedClasses : List (String × CodeRanges) :=
  [("alnum", [(48, 57), (65, 90), (97, 122)]), ("alpha", [(65, 90), (97, 122)]), ("ascii", [(0, 127)]),
    ("blank", [(9, 9), (32, 32)]), ("cntrl", [(0, 31), (127, 127)]), ("digit", digits),
    ("graph", [(33, 126)]), ("lower", [(97, 122)]), ("print", [(32, 126)]),
    ("punct", [(33, 47), (58, 64), (91, 96), (123, 126)]), ("space", spaces), ("upper", [(65, 90)]),
    ("word", wordChars), ("xdigit", [(48, 57), (65, 70), (97, 102)])]

end VirtualShell.Regex
