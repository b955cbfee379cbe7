import VirtualShell.Regex.Basic
import VirtualShell.Regex.Class
import VirtualShell.Text.Blank
import VirtualShell.Text.Digit

/-! Single characters and tests of a pattern as the flags in force have it, and what a backslash introduces. -/
namespace VirtualShell

inductive RegexError where
  | tooDeep
  | tooLarge
  | unclosedGroup
  | unopenedGroup
  | unsupported
  | badFlags
  | badGroupName
  | nothingToRepeat
  | badRepetition
  | badEscape
  | unclosedClass
  | badClass
  deriving DecidableEq, Repr

def RegexError.message : RegexError → String
  | .tooDeep => "pattern has too much nesting"
  | .tooLarge => "pattern is too large"
  | .unclosedGroup => "found open group without closing ')'"
  | .unopenedGroup => "found closing ')' without matching '('"
  | .unsupported => "look-around, back references and properties are not supported"
  | .badFlags => "invalid flags"
  | .badGroupName => "invalid group name"
  | .nothingToRepeat => "nothing to repeat"
  | .badRepetition => "invalid repetition"
  | .badEscape => "invalid escape sequence"
  | .unclosedClass => "unclosed character class"
  | .badClass => "invalid character class"

namespace Regex

/-- The flags in force at a place of a pattern. -/
structure Flags where
  ignoreCase : Bool
  multiLine : Bool
  dotAll : Bool
  crlf : Bool
  /-- Blanks and comments in the pattern are passed over. -/
  spaced : Bool
  deriving DecidableEq, Repr

def Flags.none : Flags := ⟨false, false, false, false, false⟩

/-- A pattern without the blanks and comments at its start. -/
def skipComments : Nat → List Char → List Char
  | 0, s => s
  | fuel + 1, s =>
    match s with
    | '#' :: rest => skipComments fuel (rest.dropWhile (· ≠ '\n'))
    | c :: rest => if Text.isBlank c then skipComments fuel rest else c :: rest
    | [] => []

/-- What follows, once blanks and comments are passed over if they are to be. -/
def skip (flags : Flags) (s : List Char) : List Char :=
  if flags.spaced then skipComments (s.length + 1) s else s

/-- The expression for one character. -/
def literal (flags : Flags) (c : Char) : Regex :=
  let range := (c.toNat, c.toNat)
  match if flags.ignoreCase then otherCase range else none with
  | some other => .chars (canonical [range, other])
  | none => .char c

def dot (flags : Flags) : Regex :=
  .chars (if flags.dotAll then [(0, maxCodePoint)]
    else if flags.crlf then complement [(10, 10), (13, 13)]
    else complement [(10, 10)])

def lineStart (flags : Flags) : Regex :=
  .look (if !flags.multiLine then .start else if flags.crlf then .lineStartCrlf else .lineStart)

def lineEnd (flags : Flags) : Regex :=
  .look (if !flags.multiLine then .finish else if flags.crlf then .lineEndCrlf else .lineEnd)

/-- Punctuation that may follow a backslash to stand for itself. -/
def isEscapable (c : Char) : Bool := c.toNat < 128 && !c.isAlphanum && c ≠ '<' && c ≠ '>'

/-- The expression for the character whose number is given, if there is one. -/
def numbered (flags : Flags) (digits : List Char) : Except RegexError Regex :=
  match Text.number? 16 digits with
  | some n => if n.isValidChar then .ok (literal flags (Char.ofNat n)) else .error .badEscape
  | none => .error .badEscape

/-- Characters of a kind up to a number of them, each with the blanks after it passed over. -/
def takeSpaced (flags : Flags) (kind : Char → Bool) : Nat → List Char → List Char × List Char
  | 0, s => ([], s)
  | n + 1, s =>
    match s with
    | c :: rest =>
      if kind c then
        let (taken, rest) := takeSpaced flags kind n (skip flags rest)
        (c :: taken, rest)
      else ([], s)
    | [] => ([], [])

def isHex (c : Char) : Bool := (Text.digitValue? 16 c).isSome

/-- A character given by its number, after the letter that announces it. -/
def readHex (flags : Flags) (width : Nat) (s : List Char) : Except RegexError (Regex × List Char) :=
  match skip flags s with
  | '\x7b' :: rest =>
    match takeSpaced flags isHex rest.length (skip flags rest) with
    | (digits, '\x7d' :: rest) => (numbered flags digits).map (·, skip flags rest)
    | _ => .error .badEscape
  | s =>
    let (digits, rest) := takeSpaced flags isHex width s
    if digits.length < width then .error .badEscape else (numbered flags digits).map (·, rest)

/--
The boundary after `\b`. Braces may name another one; when no name starts after the first brace, it is
left for a repetition.
-/
def readBoundary (flags : Flags) (s : List Char) : Except RegexError (Regex × List Char) :=
  let isNameChar (c : Char) : Bool := c.isAlpha || c = '-'
  match s with
  | '\x7b' :: more =>
    match skip flags more with
    | [] => .error .badEscape
    | c :: rest =>
      if !isNameChar c then .ok (.look .word, s)
      else match takeSpaced flags isNameChar (rest.length + 1) (c :: rest) with
      | (name, '\x7d' :: rest) =>
        if name = "start".toList then .ok (.look .wordStart, rest)
        else if name = "end".toList then .ok (.look .wordEnd, rest)
        else if name = "start-half".toList then .ok (.look .wordStartHalf, rest)
        else if name = "end-half".toList then .ok (.look .wordEndHalf, rest)
        else .error .badEscape
      | _ => .error .badEscape
  | s => .ok (.look .word, s)

/-- What a backslash introduces. -/
def readEscape (flags : Flags) : List Char → Except RegexError (Regex × List Char)
  | [] => .error .badEscape
  | c :: rest =>
    if c.isDigit || c = 'p' || c = 'P' then .error .unsupported
    else if c = 'x' then readHex flags 2 rest
    else if c = 'u' then readHex flags 4 rest
    else if c = 'U' then readHex flags 8 rest
    else if c = 'd' then .ok (.chars digits, rest)
    else if c = 'D' then .ok (.chars (complement digits), rest)
    else if c = 's' then .ok (.chars spaces, rest)
    else if c = 'S' then .ok (.chars (complement spaces), rest)
    else if c = 'w' then .ok (.chars wordChars, rest)
    else if c = 'W' then .ok (.chars (complement wordChars), rest)
    else if isEscapable c then .ok (literal flags c, rest)
    else if c = 'a' then .ok (literal flags '\x07', rest)
    else if c = 'f' then .ok (literal flags '\x0c', rest)
    else if c = 't' then .ok (literal flags '\t', rest)
    else if c = 'n' then .ok (literal flags '\n', rest)
    else if c = 'r' then .ok (literal flags '\r', rest)
    else if c = 'v' then .ok (literal flags '\x0b', rest)
    else if c = 'A' then .ok (.look .start, rest)
    else if c = 'z' then .ok (.look .finish, rest)
    else if c = 'b' then readBoundary flags rest
    else if c = 'B' then .ok (.look .notWord, rest)
    else if c = '<' then .ok (.look .wordStart, rest)
    else if c = '>' then .ok (.look .wordEnd, rest)
    else .error .badEscape

end Regex
end VirtualShell
