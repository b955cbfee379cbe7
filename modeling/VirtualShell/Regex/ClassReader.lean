import VirtualShell.Regex.Escape

/-! Reading character classes: characters, ranges, escapes and named classes between brackets. -/
namespace VirtualShell.Regex

open Text (CodeRanges)

/-- A named class such as `[:alpha:]`, after its first bracket. -/
def readNamedClass : List Char → Option (CodeRanges × List Char)
  | ':' :: rest =>
    let negated := rest.head? = some '^'
    let rest := if negated then rest.drop 1 else rest
    let name := rest.takeWhile (· ≠ ':')
    match rest.drop name.length with
    | ':' :: ']' :: rest =>
      (namedClasses.lookup (.ofList name)).map fun ranges =>
        (if negated then complement ranges else ranges, rest)
    | _ => none
  | _ => none

/-- One item of a class: a character as it stands, or an escape. -/
def readClassItem (flags : Flags) : List Char → Except RegexError (Regex × List Char)
  | [] => .error .unclosedClass
  | '\\' :: rest => readEscape flags rest
  | c :: rest => .ok (.char c, rest)

/-- What an item adds to a class. -/
def itemRanges : Regex → Except RegexError CodeRanges
  | .char c => .ok [(c.toNat, c.toNat)]
  | .chars ranges => .ok ranges
  | _ => .error .badClass

/-- The code point of an item that may end a range. -/
def itemCode : Regex → Except RegexError Nat
  | .char c => .ok c.toNat
  | _ => .error .badClass

/--
The character that decides whether a dash makes a range: the first after it that is no blank and does not
start a comment. What the comment holds is not passed over.
-/
def afterDash (flags : Flags) (s : List Char) : Option Char :=
  if !flags.spaced then s.head?
  else
    let inside := match s.dropWhile Text.isBlank with
      | '#' :: rest => rest.dropWhile Text.isBlank
      | rest => rest
    inside.head?.or s.head?

/-- A range of a class, or one item by itself. -/
def readClassRange (flags : Flags) (s : List Char) : Except RegexError (CodeRanges × List Char) := do
  let (first, rest) ← readClassItem flags s
  match skip flags rest with
  | [] => .error .unclosedClass
  | '-' :: more =>
    let next := afterDash flags more
    if next = some ']' || next = some '-' then return (← itemRanges first, '-' :: more)
    else
      let (last, rest) ← readClassItem flags (skip flags more)
      let low ← itemCode first
      let high ← itemCode last
      if low ≤ high then return ([(low, high)], rest) else .error .badClass
  | rest => return (← itemRanges first, rest)

/-- The items of a class up to its bracket. -/
def readClassItems (flags : Flags) : Nat → CodeRanges → List Char →
    Except RegexError (CodeRanges × List Char)
  | 0, _, _ => .error .unclosedClass
  | fuel + 1, items, s =>
    match skip flags s with
    | [] => .error .unclosedClass
    | ']' :: rest => .ok (items, rest)
    | '[' :: rest =>
      match readNamedClass rest with
      | some (ranges, rest) => readClassItems flags fuel (items ++ ranges) rest
      | none => .error .badClass
    | '&' :: '&' :: _ => .error .badClass
    | '-' :: '-' :: _ => .error .badClass
    | '~' :: '~' :: _ => .error .badClass
    | s => do
      let (ranges, rest) ← readClassRange flags s
      readClassItems flags fuel (items ++ ranges) rest

/-- The dashes that stand for themselves at the start of a class. -/
def leadingDashes (flags : Flags) : Nat → CodeRanges → List Char → CodeRanges × List Char
  | 0, items, s => (items, s)
  | fuel + 1, items, s =>
    match s with
    | '-' :: rest => leadingDashes flags fuel (items ++ [(45, 45)]) (skip flags rest)
    | s => (items, s)

/-- A class, after its bracket. A closing bracket right at its start stands for itself. -/
def readClass (flags : Flags) (s : List Char) : Except RegexError (Regex × List Char) := do
  let s := skip flags s
  let (negated, s) := match s with
    | '^' :: rest => (true, skip flags rest)
    | s => (false, s)
  let (items, s) := leadingDashes flags (s.length + 1) [] s
  let (items, s) := match items, s with
    | [], ']' :: rest => ([(93, 93)], skip flags rest)
    | items, s => (items, s)
  let (items, rest) ← readClassItems flags (s.length + 1) items s
  let items := canonical items
  let items := if flags.ignoreCase then foldCase items else items
  return (.chars (if negated then complement items else items), rest)

end VirtualShell.Regex
