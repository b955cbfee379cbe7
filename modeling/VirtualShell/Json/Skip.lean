import VirtualShell.Json.Reader

/-!
Passing over JSON values that nobody asks for. Their form is checked, but not whether a number has a range
or an escape makes a character, and they may nest as deeply as they like.
-/
namespace VirtualShell.Json

/-- What follows some digits, if there is at least one. -/
def skipDigits (s : List Char) : Except JsonError (List Char) :=
  if (s.takeWhile Char.isDigit).isEmpty then .error .malformed else .ok (s.dropWhile Char.isDigit)

/-- What follows an exponent, if one comes next. -/
def skipExponent : List Char → Except JsonError (List Char)
  | c :: rest =>
    if c = 'e' || c = 'E' then
      skipDigits (match rest with
        | '-' :: more => more
        | '+' :: more => more
        | rest => rest)
    else .ok (c :: rest)
  | [] => .ok []

/-- What follows a number, its sign already read. -/
def skipNumber (s : List Char) : Except JsonError (List Char) := do
  let rest ← skipDigits s
  if s.head? = some '0' && s.length > rest.length + 1 then .error .malformed
  match rest with
  | '.' :: places => skipExponent (← skipDigits places)
  | rest => skipExponent rest

/-- What follows a text, after its opening quote. -/
def skipString : Nat → List Char → Except JsonError (List Char)
  | 0, _ => .error .malformed
  | _ + 1, [] => .error .malformed
  | fuel + 1, c :: rest =>
    if c = '\"' then .ok rest
    else if c.toNat < 32 then .error .malformed
    else if c = '\\' then
      match rest with
      | 'u' :: more => do skipString fuel (← hex4 more).2
      | e :: more => if (simpleEscape? e).isSome then skipString fuel more else .error .malformed
      | [] => .error .malformed
    else skipString fuel rest

inductive Bracket where
  | square
  | curly

def Bracket.close : Bracket → Char
  | .square => ']'
  | .curly => '\x7d'

/-- What has to come next within the brackets that are open, the innermost first. -/
inductive Expected where
  | value
  /-- A comma, or the end of what is open. -/
  | more
  /-- What may follow an opening bracket. -/
  | first

/-- What follows the name of a member and its colon. -/
def skipName (s : List Char) : Except JsonError (List Char) := do
  match skipSpace s with
  | '\"' :: rest =>
    match skipSpace (← skipString (rest.length + 1) rest) with
    | ':' :: rest => return rest
    | _ => .error .malformed
  | _ => .error .malformed

/-- What follows a value, or all values that are open; every step takes a character or needs a value next. -/
def skipOpen : Nat → Expected → List Bracket → List Char → Except JsonError (List Char)
  | 0, _, _, _ => .error .malformed
  | fuel + 1, .value, opened, s => do
    let after (word : String) (rest : List Char) : Except JsonError (List Char) :=
      if word.toList.isPrefixOf rest then skipOpen fuel .more opened (rest.drop word.length)
      else .error .malformed
    match skipSpace s with
    | 'n' :: rest => after "ull" rest
    | 't' :: rest => after "rue" rest
    | 'f' :: rest => after "alse" rest
    | '\"' :: rest => skipOpen fuel .more opened (← skipString (rest.length + 1) rest)
    | '-' :: rest => skipOpen fuel .more opened (← skipNumber rest)
    | '[' :: rest => skipOpen fuel .first (.square :: opened) rest
    | '\x7b' :: rest => skipOpen fuel .first (.curly :: opened) rest
    | s => skipOpen fuel .more opened (← skipNumber s)
  | _ + 1, _, [], s => .ok s
  | fuel + 1, state, bracket :: opened, s => do
    let item (rest : List Char) : Except JsonError (List Char) := do
      match bracket with
      | .square => skipOpen fuel .value (bracket :: opened) rest
      | .curly => skipOpen fuel .value (bracket :: opened) (← skipName rest)
    match skipSpace s, state with
    | [], _ => .error .malformed
    | c :: rest, .first => if c = bracket.close then skipOpen fuel .more opened rest else item (c :: rest)
    | c :: rest, _ =>
      if c = bracket.close then skipOpen fuel .more opened rest
      else if c = ',' then item rest
      else .error .malformed

/-- What follows a value. -/
def skipValue (s : List Char) : Except JsonError (List Char) :=
  skipOpen (2 * s.length + 2) .value [] s

/--
The members of an object, after its brace, that have one of the given names; the values of others are
passed over. There is at least one member.
-/
def readKnown (names : List String) : Nat → List Char → Except JsonError (List (String × Json) × List Char)
  | 0, _ => .error .malformed
  | fuel + 1, s => do
    let (key, rest) ← match skipSpace s with
      | '\"' :: rest => readString rest
      | _ => .error .malformed
    let (found, rest) ← match skipSpace rest with
      | ':' :: rest =>
        if names.contains key then do
          let (value, rest) ← readValue (2 * rest.length + 2) depthLimit rest
          pure ([(key, value)], rest)
        else (skipValue rest).map ([], ·)
      | _ => .error .malformed
    match skipSpace rest with
    | '\x7d' :: rest => return (found, rest)
    | ',' :: rest =>
      let (members, rest) ← readKnown names fuel rest
      return (found ++ members, rest)
    | _ => .error .malformed

/-- A whole text as one value, of which an object has only the members of the given names. -/
def readRecord (names : List String) (text : String) : Except JsonError Json := do
  let s := text.toList
  match skipSpace s with
  | '\x7b' :: rest =>
    let (members, rest) ← match skipSpace rest with
      | '\x7d' :: rest => pure ([], rest)
      | rest => readKnown names (rest.length + 1) rest
    if (skipSpace rest).isEmpty then return .object members else .error .trailing
  | s => readAsWritten depthLimit s

end VirtualShell.Json
