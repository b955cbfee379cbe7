import VirtualShell.Json.Basic
import VirtualShell.Text.Digit

/-!
Reading JSON text. A number keeps as many leading digits as 64 bits hold; a floating-point number is
those digits, rounded, times or over a power of ten, rounded again.
-/
namespace VirtualShell

/-- Why a text is no JSON, or no JSON of the wanted shape. -/
inductive JsonError where
  | malformed
  | trailing
  | tooDeep
  | outOfRange
  | missing (field : String)
  | repeated (field : String)
  | mismatch (field : String)
  deriving DecidableEq, Repr

def JsonError.message : JsonError → String
  | .malformed => "malformed JSON"
  | .trailing => "trailing characters"
  | .tooDeep => "recursion limit exceeded"
  | .outOfRange => "number out of range"
  | .missing field => s!"missing field `{field}`"
  | .repeated field => s!"duplicate field `{field}`"
  | .mismatch field => s!"invalid type for `{field}`"

namespace Json

/-- What is left of a text, with what was read from its start. -/
abbrev Reading (α : Type) := Except JsonError (α × List Char)

def isSpace (c : Char) : Bool := c = ' ' || c = '\n' || c = '\t' || c = '\r'

def skipSpace (s : List Char) : List Char := s.dropWhile isSpace

/-- Four hexadecimal digits. -/
def hex4 : List Char → Reading Nat
  | a :: b :: c :: d :: rest =>
    match Text.digitValue? 16 a, Text.digitValue? 16 b, Text.digitValue? 16 c, Text.digitValue? 16 d with
    | some w, some x, some y, some z => .ok (w * 4096 + x * 256 + y * 16 + z, rest)
    | _, _, _, _ => .error .malformed
  | _ => .error .malformed

/-- The character of a `\u` escape; two escapes of surrogates make one character. -/
def unicodeEscape (s : List Char) : Reading Char :=
  match hex4 s with
  | .error e => .error e
  | .ok (high, rest) =>
    if 0xDC00 ≤ high && high ≤ 0xDFFF then .error .malformed
    else if 0xD800 ≤ high && high ≤ 0xDBFF then
      match rest with
      | '\\' :: 'u' :: more =>
        match hex4 more with
        | .error e => .error e
        | .ok (low, rest) =>
          if 0xDC00 ≤ low && low ≤ 0xDFFF then
            .ok (Char.ofNat (0x10000 + (high - 0xD800) * 1024 + (low - 0xDC00)), rest)
          else .error .malformed
      | _ => .error .malformed
    else .ok (Char.ofNat high, rest)

/-- The character after a backslash, other than `\u`. -/
def simpleEscape? : Char → Option Char
  | '\"' => some '\"'
  | '\\' => some '\\'
  | '/' => some '/'
  | 'b' => some '\x08'
  | 'f' => some '\x0c'
  | 'n' => some '\n'
  | 'r' => some '\r'
  | 't' => some '\t'
  | _ => none

/-- A text up to its closing quote. -/
def stringBody : Nat → List Char → List Char → Reading String
  | 0, _, _ => .error .malformed
  | _ + 1, _, [] => .error .malformed
  | fuel + 1, done, c :: rest =>
    if c = '\"' then .ok (.ofList done.reverse, rest)
    else if c.toNat < 32 then .error .malformed
    else if c = '\\' then
      match rest with
      | 'u' :: more =>
        match unicodeEscape more with
        | .error e => .error e
        | .ok (c, more) => stringBody fuel (c :: done) more
      | e :: more =>
        match simpleEscape? e with
        | some c => stringBody fuel (c :: done) more
        | none => .error .malformed
      | [] => .error .malformed
    else stringBody fuel (c :: done) rest

def readString (s : List Char) : Reading String := stringBody (s.length + 1) [] s

/-- The largest whole number of 64 bits. -/
def maxNatural : Nat := UInt64.size - 1

/-- Digits read into a significand while it fits 64 bits, and how many did not fit. -/
def absorb (significand : Nat) : List Char → Nat × Nat
  | [] => (significand, 0)
  | d :: rest =>
    let next := significand * 10 + (d.toNat - 48)
    if next ≤ maxNatural then absorb next rest else (significand, rest.length + 1)

/-- A significand scaled by a power of ten. -/
def scale : Nat → Number.Binary64 → Int → Except JsonError Number.Binary64
  | 0, x, _ => .ok x
  | fuel + 1, x, exponent =>
    if exponent.natAbs ≤ 308 then
      let power := Number.Binary64.ofDecimal false 1 exponent.natAbs
      if exponent ≥ 0 then
        let y := x.mulMagnitude power
        if y.isFinite then .ok y else .error .outOfRange
      else .ok (x.divMagnitude power)
    else if x.isZero then .ok x
    else if exponent ≥ 0 then .error .outOfRange
    else scale fuel (x.divMagnitude (.ofDecimal false 1 308)) (exponent + 308)

def floatOf (negative : Bool) (significand : Nat) (exponent : Int) : Except JsonError JsonNumber := do
  let x ← scale 4 (.ofNat significand) exponent
  return .float (if negative then x.neg else x)

/-- The exponent part of a number, after its `e`. -/
def readExponent (s : List Char) : Reading Int :=
  let (negative, s) := match s with
    | '-' :: rest => (true, rest)
    | '+' :: rest => (false, rest)
    | s => (false, s)
  let digits := s.takeWhile Char.isDigit
  if digits.isEmpty then .error .malformed
  else
    let n : Int := digits.foldl (fun n d => n * 10 + (d.toNat - 48)) 0
    .ok (if negative then -n else n, s.dropWhile Char.isDigit)

/-- The rest of a floating-point number from its exponent mark on, if it has one. -/
def finishFloat (negative : Bool) (significand : Nat) (exponent : Int) (s : List Char) :
    Except JsonError (JsonNumber × List Char) := do
  let (power, rest) ← match s with
    | 'e' :: more => readExponent more
    | 'E' :: more => readExponent more
    | s => .ok (0, s)
  let x ← floatOf negative significand (exponent + power)
  return (x, rest)

def wholeNumber (negative : Bool) (n : Nat) : JsonNumber :=
  if !negative then .natural n.toUInt64
  else if 0 < n && n ≤ 1 <<< 63 then .negative n.toUInt64
  else .float (Number.Binary64.ofNat n).neg

/-- A number, its sign already read. -/
def readMagnitude (negative : Bool) (s : List Char) : Reading JsonNumber :=
  let digits := s.takeWhile Char.isDigit
  let rest := s.dropWhile Char.isDigit
  if digits.isEmpty || (digits.head? = some '0' && digits.length > 1) then .error .malformed
  else
    let (significand, dropped) := absorb 0 digits
    match rest with
    | '.' :: more =>
      let places := more.takeWhile Char.isDigit
      if places.isEmpty then .error .malformed
      else
        let (significand, unused) := absorb significand places
        let exponent : Int := (dropped : Int) - (places.length - unused : Nat)
        finishFloat negative significand exponent (more.dropWhile Char.isDigit)
    | 'e' :: _ => finishFloat negative significand dropped rest
    | 'E' :: _ => finishFloat negative significand dropped rest
    | rest =>
      if dropped = 0 then .ok (wholeNumber negative significand, rest)
      else finishFloat negative significand dropped rest

/-- The rest of a text after a fixed word. -/
def expect (word : List Char) (value : Json) (s : List Char) : Reading Json :=
  if word.isPrefixOf s then .ok (value, s.drop word.length) else .error .malformed

mutual

/-- A value, with at most `limit` arrays and objects around each other. -/
def readValue : Nat → Nat → List Char → Reading Json
  | 0, _, _ => .error .malformed
  | fuel + 1, limit, s =>
    match skipSpace s with
    | 'n' :: rest => expect ['u', 'l', 'l'] .null rest
    | 't' :: rest => expect ['r', 'u', 'e'] (.bool true) rest
    | 'f' :: rest => expect ['a', 'l', 's', 'e'] (.bool false) rest
    | '\"' :: rest => (readString rest).map fun (t, rest) => (.string t, rest)
    | '-' :: rest => (readMagnitude true rest).map fun (n, rest) => (.number n, rest)
    | '[' :: rest =>
      match limit with
      | 0 => .error .tooDeep
      | limit + 1 =>
        match skipSpace rest with
        | ']' :: rest => .ok (.array [], rest)
        | rest => (readItems fuel limit rest).map fun (items, rest) => (.array items, rest)
    | '\x7b' :: rest =>
      match limit with
      | 0 => .error .tooDeep
      | limit + 1 =>
        match skipSpace rest with
        | '\x7d' :: rest => .ok (.object [], rest)
        | rest => (readMembers fuel limit rest).map fun (members, rest) => (.object members, rest)
    | s => (readMagnitude false s).map fun (n, rest) => (.number n, rest)

/-- The items of an array up to its bracket; there is at least one. -/
def readItems : Nat → Nat → List Char → Except JsonError (List Json × List Char)
  | 0, _, _ => .error .malformed
  | fuel + 1, limit, s => do
    let (item, rest) ← readValue fuel limit s
    match skipSpace rest with
    | ']' :: rest => return ([item], rest)
    | ',' :: rest =>
      let (items, rest) ← readItems fuel limit rest
      return (item :: items, rest)
    | _ => .error .malformed

/-- The members of an object up to its brace, as written; there is at least one. -/
def readMembers : Nat → Nat → List Char → Except JsonError (List (String × Json) × List Char)
  | 0, _, _ => .error .malformed
  | fuel + 1, limit, s => do
    let (key, rest) ← match skipSpace s with
      | '\"' :: rest => readString rest
      | _ => .error .malformed
    let (value, rest) ← match skipSpace rest with
      | ':' :: rest => readValue fuel limit rest
      | _ => .error .malformed
    match skipSpace rest with
    | '\x7d' :: rest => return ([(key, value)], rest)
    | ',' :: rest =>
      let (members, rest) ← readMembers fuel limit rest
      return ((key, value) :: members, rest)
    | _ => .error .malformed

end

/-- A whole text as one value, objects with their members as written. -/
def readAsWritten (limit : Nat) (s : List Char) : Except JsonError Json := do
  let (value, rest) ← readValue (2 * s.length + 2) limit s
  if (skipSpace rest).isEmpty then return value else .error .trailing

mutual

/-- The value with the members of every object sorted, the last of one key kept. -/
def canonical : Json → Json
  | .array items => .array (canonicalItems items)
  | .object members => .object (canonicalMembers members [])
  | value => value

def canonicalItems : List Json → List Json
  | [] => []
  | x :: rest => canonical x :: canonicalItems rest

def canonicalMembers : List (String × Json) → Keyed Json → Keyed Json
  | [], sorted => sorted
  | (k, x) :: rest, sorted => canonicalMembers rest (Keyed.insert k (canonical x) sorted)

end

/-- How deeply arrays and objects may nest in a document. -/
def depthLimit : Nat := 127

/-- The value that a text stands for. -/
def read (text : String) : Except JsonError Json := (readAsWritten depthLimit text.toList).map canonical

end Json
end VirtualShell
