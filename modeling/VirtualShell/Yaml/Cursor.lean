import VirtualShell.Yaml.Basic

/-! A place in a text that is read line by line, and the classes of characters that lexemes are made of. -/
namespace VirtualShell.Yaml

/-- The characters that end a line. -/
def isBreak (c : Char) : Bool :=
  c == '\n' || c == '\r' || c == '\u0085' || c == '\u2028' || c == '\u2029'

/-- The blanks within a line. -/
def isGap (c : Char) : Bool := c == ' ' || c == '\t'

/-- The characters of names. -/
def isWord (c : Char) : Bool := c.isAlphanum || c == '_' || c == '-'

/-- Whether nothing, a blank or a line break comes next. -/
def isSeparated : List Char → Bool
  | [] => true
  | c :: _ => isGap c || isBreak c

/-- The characters that a document may hold. -/
def isAllowed (c : Char) : Bool :=
  let n := c.toNat
  n == 0x09 || n == 0x0A || n == 0x0D || (0x20 ≤ n && n ≤ 0x7E) || n == 0x85 ||
  (0xA0 ≤ n && n ≤ 0xD7FF) || (0xE000 ≤ n && n ≤ 0xFFFD) || 0x10000 ≤ n

/-- A place in a text: what follows, and how far it is from the start of the text and of its line. -/
structure Cursor where
  rest : List Char
  offset : Nat
  line : Nat
  column : Nat

namespace Cursor

def start (text : List Char) : Cursor := ⟨text, 0, 0, 0⟩

/-- Moves on within a line. -/
def skip (cursor : Cursor) (n : Nat) : Cursor :=
  { cursor with rest := cursor.rest.drop n, offset := cursor.offset + n, column := cursor.column + n }

/-- Moves past the characters of a class. -/
def skipWhile (cursor : Cursor) (p : Char → Bool) : Cursor := cursor.skip (cursor.rest.takeWhile p).length

/-- Moves past a line break, and tells how it is kept in a scalar. -/
def takeBreak (cursor : Cursor) : List Char × Cursor :=
  let next (n : Nat) : Cursor := ⟨cursor.rest.drop n, cursor.offset + n, cursor.line + 1, 0⟩
  match cursor.rest with
  | '\r' :: '\n' :: _ => (['\n'], next 2)
  | c :: _ =>
    if c == '\u2028' || c == '\u2029' then ([c], next 1)
    else if isBreak c then (['\n'], next 1)
    else ([], cursor)
  | [] => ([], cursor)

/-- Moves past a line break if there is one. -/
def skipBreak (cursor : Cursor) : Cursor := cursor.takeBreak.2

/-- Whether a line starts here with three times the same character, standing alone. -/
def atMark (cursor : Cursor) (c : Char) : Bool :=
  cursor.column == 0 &&
  match cursor.rest with
  | x :: y :: z :: rest => x == c && y == c && z == c && isSeparated rest
  | _ => false

/-- Whether a line starts here that parts documents. -/
def atDocumentMark (cursor : Cursor) : Bool := cursor.atMark '-' || cursor.atMark '.'

/-- Moves past blanks and a comment, to the end of the line. -/
def skipComment (cursor : Cursor) : Except YamlError Cursor :=
  let cursor := cursor.skipWhile isGap
  let cursor := match cursor.rest with
    | '#' :: _ => cursor.skipWhile fun c => !isBreak c
    | _ => cursor
  match cursor.rest with
  | [] => .ok cursor
  | c :: _ =>
    if isBreak c then .ok cursor.skipBreak
    else .error (.badLexeme "did not find expected comment or line break")

end Cursor
end VirtualShell.Yaml
