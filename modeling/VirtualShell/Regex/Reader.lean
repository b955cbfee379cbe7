import VirtualShell.Regex.ClassReader
import VirtualShell.Regex.Size
import VirtualShell.Text.Alphanumeric

/-!
Reading regular expressions. There are groups with flags, named groups, counted repetition and word
boundaries, but no look-around, back references or nested classes.
-/
namespace VirtualShell.Regex

/-- How far a pattern has been read. -/
structure Place where
  rest : List Char
  flags : Flags
  /-- The number of groups so far. -/
  count : Nat
  /-- The names of the groups so far. -/
  names : List (List Char)

/-- A decimal number of 32 bits with blanks around it. -/
def readDecimal (flags : Flags) (s : List Char) : Except RegexError (Nat × List Char) :=
  let (taken, rest) := takeSpaced flags Char.isDigit s.length (s.dropWhile Text.isBlank)
  match Text.number? 10 taken with
  | some value => if value < UInt32.size then .ok (value, rest.dropWhile Text.isBlank) else .error .badRepetition
  | none => .error .badRepetition

/-- What follows a repetition, without the mark that makes it take as little as it can. -/
def dropLazy : List Char → List Char
  | '?' :: rest => rest
  | s => s

/-- The bounds of a counted repetition, after its brace. -/
def readBounds (flags : Flags) (s : List Char) :
    Except RegexError (Nat × Option Nat × List Char) := do
  let (least, rest) ← readDecimal flags (skip flags s)
  let (most, rest) ← match rest with
    | ',' :: rest =>
      match skip flags rest with
      | '\x7d' :: rest => pure (none, '\x7d' :: rest)
      | rest => do
        let (most, rest) ← readDecimal flags rest
        pure (some most, rest)
    | rest => pure (some least, rest)
  match rest with
  | '\x7d' :: rest =>
    if most.any (· < least) then .error .badRepetition
    else return (least, most, dropLazy (skip flags rest))
  | _ => .error .badRepetition

/-- An expression repeated; never is nothing, and once is the expression itself. -/
def repeated (sub : Regex) (least : Nat) (most : Option Nat) : Regex :=
  if least = 0 && most = some 0 then .empty
  else if least = 1 && most = some 1 then sub
  else .times sub least most

/-- Expressions in a row as one. -/
def inTurn : List Regex → Regex
  | [] => .empty
  | [part] => part
  | parts => .concat parts

def anyOf : List Regex → Regex
  | [part] => part
  | parts => .alternatives parts

/-- One flag letter, set or cleared. -/
def setFlag (on : Bool) (flags : Flags) : Char → Option Flags
  | 'i' => some { flags with ignoreCase := on }
  | 'm' => some { flags with multiLine := on }
  | 's' => some { flags with dotAll := on }
  | 'R' => some { flags with crlf := on }
  | 'x' => some { flags with spaced := on }
  | 'U' => some flags
  | 'u' => some flags
  | _ => none

/-- Flag letters up to a colon or a bracket; each stands once, and a dash has a letter after it. -/
def readFlags (negated dangling : Bool) (seen : List Char) (flags : Flags) :
    List Char → Except RegexError (Flags × List Char)
  | [] => .error .badFlags
  | c :: rest =>
    if c = ':' || c = ')' then if dangling then .error .badFlags else .ok (flags, c :: rest)
    else if c = '-' then if negated then .error .badFlags else readFlags true true seen flags rest
    else if seen.contains c then .error .badFlags
    else match setFlag (!negated) flags c with
      | some flags => readFlags negated false (c :: seen) flags rest
      | none => .error .badFlags

/-- Whether a character may stand in the name of a group. -/
def isGroupNameChar (first : Bool) (c : Char) : Bool :=
  c = '_' || Text.isAlphabetic c ||
    (!first && (Text.isAlphanumeric c || c = '.' || c = '[' || c = ']'))

/-- The name of a group, up to its angle bracket. -/
def readGroupName (names : List (List Char)) (s : List Char) :
    Except RegexError (List Char × List Char) :=
  let name := s.takeWhile (· ≠ '>')
  let fits := (name.take 1).all (isGroupNameChar true) && (name.drop 1).all (isGroupNameChar false)
  match s.drop name.length with
  | _ :: rest =>
    if name.isEmpty || !fits || names.contains name then .error .badGroupName else .ok (name, rest)
  | [] => .error .badGroupName

/-- How deeply groups and other parts may nest. -/
def nestLimit : Nat := 50

/-- What stands after an opening bracket. -/
inductive Opening where
  /-- Flags for the rest of the surrounding group. -/
  | flags (flags : Flags)
  /-- A group with flags of its own. -/
  | plain (flags : Flags)
  | capture (name : Option (List Char))

/-- The kind of a group, after its bracket. -/
def readOpening (place : Place) (s : List Char) : Except RegexError (Opening × List Char) :=
  let named (rest : List Char) : Except RegexError (Opening × List Char) := do
    let (name, rest) ← readGroupName place.names rest
    return (.capture (some name), rest)
  match skip place.flags s with
  | '?' :: '=' :: _ => .error .unsupported
  | '?' :: '!' :: _ => .error .unsupported
  | '?' :: '<' :: '=' :: _ => .error .unsupported
  | '?' :: '<' :: '!' :: _ => .error .unsupported
  | '?' :: 'P' :: '<' :: rest => named rest
  | '?' :: '<' :: rest => named rest
  | '?' :: rest =>
    match readFlags false false [] place.flags rest with
    | .error e => .error e
    | .ok (flags, ':' :: after) => .ok (.plain flags, after)
    | .ok (flags, after) =>
      if rest.head? = some ')' then .error .badFlags else .ok (.flags flags, after)
  | s => .ok (.capture none, s)

/--
Reads alternatives up to the end of the pattern or of the group. `parts` are those of the current
alternative, the last first, and `others` the alternatives before it, the last first.
-/
def readParts : Nat → Nat → List Regex → List Regex → Place → Except RegexError (Regex × Place)
  | 0, _, _, _, _ => .error .tooDeep
  | fuel + 1, depth, parts, others, place =>
    let done (place : Place) : Except RegexError (Regex × Place) :=
      .ok (anyOf ((inTurn parts.reverse :: others).reverse), place)
    let add (part : Regex) (rest : List Char) : Except RegexError (Regex × Place) :=
      readParts fuel depth (part :: parts) others { place with rest }
    let again (least : Nat) (most : Option Nat) (rest : List Char) : Except RegexError (Regex × Place) :=
      match parts with
      | last :: before => readParts fuel depth (repeated last least most :: before) others { place with rest }
      | [] => .error .nothingToRepeat
    match skip place.flags place.rest with
    | [] => done { place with rest := [] }
    | '(' :: rest => do
      let (opening, rest) ← readOpening place rest
      let inside (start : Place) (wrap : Regex → Regex) := do
        if depth ≥ nestLimit then .error .tooDeep
        let (sub, inner) ← readParts fuel (depth + 1) [] [] { start with rest }
        match inner.rest with
        | ')' :: rest =>
          readParts fuel depth (wrap sub :: parts) others { inner with rest, flags := place.flags }
        | _ => .error .unclosedGroup
      match opening with
      | .flags flags => readParts fuel depth parts others { place with rest := rest.drop 1, flags }
      | .plain flags => inside { place with flags } id
      | .capture name =>
        let index := place.count + 1
        inside { place with count := index, names := name.toList ++ place.names } (.group index name)
    | ')' :: rest => if depth = 0 then .error .unopenedGroup else done { place with rest := ')' :: rest }
    | '|' :: rest => readParts fuel depth [] (inTurn parts.reverse :: others) { place with rest }
    | '[' :: rest => do
      let (part, rest) ← readClass place.flags rest
      add part rest
    | '?' :: rest => again 0 (some 1) (dropLazy rest)
    | '*' :: rest => again 0 none (dropLazy rest)
    | '+' :: rest => again 1 none (dropLazy rest)
    | '\x7b' :: rest => do
      if parts.isEmpty then .error .nothingToRepeat
      let (least, most, rest) ← readBounds place.flags rest
      again least most rest
    | '\\' :: rest => do
      let (part, rest) ← readEscape place.flags rest
      add part rest
    | '.' :: rest => add (dot place.flags) rest
    | '^' :: rest => add (lineStart place.flags) rest
    | '$' :: rest => add (lineEnd place.flags) rest
    | c :: rest => add (literal place.flags c) rest

/-- How many bytes the automaton of an expression may take. -/
def sizeLimit : Nat := 10 <<< 20

/-- The expression that a pattern describes. -/
def compile (pattern : String) : Except RegexError Regex := do
  let (regex, _) ← readParts (2 * pattern.length + 2) 0 [] [] ⟨pattern.toList, .none, 0, []⟩
  if regex.nesting > nestLimit then .error .tooDeep
  if regex.size > sizeLimit then .error .tooLarge
  return regex

end VirtualShell.Regex
