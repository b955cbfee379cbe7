import VirtualShell.Text.Blank

/-!
Glob patterns for file names: `?` for any character, `*` for any run of them, `[...]` and `[!...]` for
classes, and `**` only as a whole path component.
-/
namespace VirtualShell

/-- A pattern that cannot be read, and the position where that shows. -/
inductive GlobError where
  | wildcards (position : Nat)
  | recursion (position : Nat)
  | range (position : Nat)
  deriving DecidableEq, Repr

def GlobError.message : GlobError → String
  | .wildcards position =>
    s!"Pattern syntax error near position {position}: wildcards are either regular `*` or recursive `**`"
  | .recursion position =>
    s!"Pattern syntax error near position {position}: recursive wildcards must form a single path component"
  | .range position => s!"Pattern syntax error near position {position}: invalid range pattern"

/-- Characters of a class, both ends included. -/
abbrev CharClass := List (Char × Char)

inductive GlobToken where
  | char (c : Char)
  | anyChar
  | anySequence
  | anyComponents
  | within (chars : CharClass)
  | except (chars : CharClass)
  deriving DecidableEq, Repr

/-- A pattern, as the tokens it is made of. -/
structure Glob where
  tokens : List GlobToken
  deriving DecidableEq, Repr

namespace Glob

/-- The characters and ranges written between the brackets of a class. -/
def readClass : List Char → CharClass
  | a :: '-' :: b :: rest => (a, b) :: readClass rest
  | a :: rest => (a, a) :: readClass rest
  | [] => []

/-- What stands before a closing bracket, not counting one at the very start, and what follows it. -/
def upToBracket : List Char → Option (List Char × List Char)
  | [] => none
  | first :: rest =>
    let inner := rest.takeWhile (· ≠ ']')
    match rest.drop inner.length with
    | _ :: after => some (first :: inner, after)
    | [] => none

/-- Adds a wildcard for components, unless the last token but the first is one. -/
def addComponents (tokens : List GlobToken) : List GlobToken :=
  match tokens with
  | .anyComponents :: _ :: _ => tokens
  | tokens => .anyComponents :: tokens

/--
Reads tokens. `position` is where the rest starts, `before` the character in front of it and `tokens`
what was read so far, the last first.
-/
def readTokens : Nat → Nat → Option Char → List GlobToken → List Char →
    Except GlobError (List GlobToken)
  | 0, position, _, _, _ => .error (.range position)
  | _ + 1, _, _, tokens, [] => .ok tokens.reverse
  | fuel + 1, position, before, tokens, c :: rest =>
    if c = '?' then readTokens fuel (position + 1) (some c) (.anyChar :: tokens) rest
    else if c = '*' then
      let stars := (rest.takeWhile (· = '*')).length + 1
      let rest := rest.drop (stars - 1)
      let after := position + stars
      if stars > 2 then .error (.wildcards (position + 2))
      else if stars = 1 then readTokens fuel after (some c) (.anySequence :: tokens) rest
      else if before.isSome && before != some '/' then .error (.recursion (position - 1))
      else match rest with
        | [] => readTokens fuel after (some c) (addComponents tokens) []
        | '/' :: rest => readTokens fuel (after + 1) (some '/') (addComponents tokens) rest
        | _ => .error (.recursion after)
    else if c = '[' then
      let body := match rest with
        | '!' :: more => (upToBracket more).map fun (inner, after) =>
            (GlobToken.except (readClass inner), inner.length + 3, after)
        | more => (upToBracket more).map fun (inner, after) =>
            (GlobToken.within (readClass inner), inner.length + 2, after)
      match body with
      | some (token, width, after) => readTokens fuel (position + width) (some ']') (token :: tokens) after
      | none => .error (.range position)
    else readTokens fuel (position + 1) (some c) (.char c :: tokens) rest

/-- The pattern that a text describes. -/
def compile (pattern : String) : Except GlobError Glob :=
  (readTokens (pattern.length + 1) 0 none [] pattern.toList).map Glob.mk

def CharClass.has (chars : CharClass) (c : Char) : Bool :=
  chars.any fun range => range.1 ≤ c && c ≤ range.2

/-! ### Matching

A pattern is matched against all ends of a name at once: the answers are listed from the whole name down to
nothing, and each token takes the answers of those behind it to its own.
-/

/-- The first answer. -/
def first (answers : List Bool) : Bool := answers.head?.getD false

/-- The answers of the empty pattern. -/
def atEnd : List Char → List Bool
  | [] => [true]
  | _ :: s => false :: atEnd s

/-- The answers of a token for one character of a kind. -/
def takeOne (kind : Char → Bool) : List Char → List Bool → List Bool
  | c :: s, _ :: answers => (kind c && first answers) :: takeOne kind s answers
  | _, _ => [false]

/-- The answers of a token for any number of characters. -/
def takeMany : List Bool → List Bool
  | [] => []
  | answer :: answers =>
    let later := takeMany answers
    (answer || first later) :: later

/-- Whether what follows is matched behind some slash, or at the end. -/
def afterSlash : List Char → List Bool → List Bool
  | c :: s, _ :: answers =>
    let later := afterSlash s answers
    ((c = '/' && first answers) || first later) :: later
  | _, answers => answers

/-- The answers of tokens, told those of the empty pattern by the name. -/
def answers (name : List Char) : List GlobToken → List Bool
  | [] => atEnd name
  | token :: tokens =>
    let behind := answers name tokens
    match token with
    | .char a => takeOne (· = a) name behind
    | .anyChar => takeOne (fun _ => true) name behind
    | .within chars => takeOne (CharClass.has chars) name behind
    | .except chars => takeOne (fun c => !CharClass.has chars c) name behind
    | .anySequence => takeMany behind
    | .anyComponents => (behind.zip (afterSlash name behind)).map fun (here, later) => here || later

/-- Whether a pattern matches the whole of a name. -/
def isMatch (glob : Glob) (name : String) : Bool := first (answers name.toList glob.tokens)

end Glob
end VirtualShell
