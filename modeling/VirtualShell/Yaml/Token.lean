import VirtualShell.Text.Digit
import VirtualShell.Yaml.Cursor

/-! The tokens of a YAML text, and how each single one is read. -/
namespace VirtualShell.Yaml

inductive Token where
  | version (major minor : Nat)
  /-- Gives a handle the start of the tags that are written with it. -/
  | tagHandle (handle : String) (stem : Tag)
  | documentStart
  | documentEnd
  | streamEnd
  | blockSequence
  | blockMapping
  | blockEnd
  | flowSequence
  | flowSequenceEnd
  | flowMapping
  | flowMappingEnd
  | entry
  | comma
  | key
  | value
  | alias (name : String)
  | anchor (name : String)
  | tag (handle : String) (suffix : Tag)
  | scalar (text : String) (style : Style)
  deriving DecidableEq, Repr

def fail {α : Type} (problem : String) : Except YamlError α := .error (.badLexeme problem)

/-! ### Names and tags -/

/-- The name of an anchor or alias, behind its sign. -/
def anchorName (cursor : Cursor) : Except YamlError (String × Cursor) :=
  let name := cursor.rest.takeWhile isWord
  let next := cursor.skip name.length
  let ends := isSeparated next.rest || match next.rest with
    | c :: _ => ['?', ':', ',', ']', '\x7d', '%', '@', '`'].contains c
    | [] => true
  if name.isEmpty || !ends then fail "did not find expected alphabetic or numeric character"
  else .ok (.ofList name, next)

/-- The characters of a tag; brackets and commas only where the tag is closed by a sign. -/
def isTagChar (closed : Bool) (c : Char) : Bool :=
  isWord c || [';', '/', '?', ':', '@', '&', '=', '+', '$', '.', '%', '!', '~', '*', '\'', '(', ')'].contains c
  || (closed && [',', '[', ']'].contains c)

/-- How many bytes the first one of a character announces. -/
def announcedBytes? (byte : Nat) : Option Nat :=
  if byte < 0x80 then some 1
  else if byte < 0xC0 then none
  else if byte < 0xE0 then some 2
  else if byte < 0xF0 then some 3
  else if byte < 0xF8 then some 4
  else none

/--
The bytes of a text in which a percent sign and two digits stand for one. Of a character all bytes are
written so; `wanted` is how many are still to come.
-/
def unescape (wanted : Nat) : List Char → Except YamlError Tag
  | '%' :: high :: low :: rest =>
    match Text.digitValue? 16 high, Text.digitValue? 16 low with
    | some h, some l =>
      let byte := 16 * h + l
      match wanted with
      | left + 1 =>
        if 0x80 ≤ byte && byte < 0xC0 then (unescape left rest).map (byte.toUInt8 :: ·)
        else fail "found an incorrect trailing UTF-8 octet"
      | 0 =>
        match announcedBytes? byte with
        | some n => (unescape (n - 1) rest).map (byte.toUInt8 :: ·)
        | none => fail "found an incorrect leading UTF-8 octet"
    | _, _ => fail "did not find URI escaped octet"
  | '%' :: _ => fail "did not find URI escaped octet"
  | c :: rest =>
    if wanted = 0 then (unescape 0 rest).map (c.toNat.toUInt8 :: ·)
    else fail "did not find URI escaped octet"
  | [] => if wanted = 0 then .ok [] else fail "did not find URI escaped octet"

/-- The bytes that a part of a tag is written for; a zero byte ends them. -/
def tagBytes (cs : List Char) : Except YamlError Tag :=
  (unescape 0 cs).map fun bytes => bytes.takeWhile (· != 0)

/-- The handle of a tag: an exclamation mark, and if another one follows a name all up to that. -/
def tagHandle (cursor : Cursor) : Option (List Char) :=
  match cursor.rest with
  | '!' :: rest =>
    let name := rest.takeWhile isWord
    match rest.drop name.length with
    | '!' :: _ => some ('!' :: name ++ ['!'])
    | _ => some ('!' :: name)
  | _ => none

/-- A tag at its exclamation mark. -/
def tagToken (flow : Bool) (cursor : Cursor) : Except YamlError (Token × Cursor) := do
  let (token, next) ← match cursor.rest with
    | '!' :: '<' :: rest => do
      let suffix := rest.takeWhile (isTagChar true)
      if suffix.isEmpty then fail "did not find expected tag URI"
      let next := cursor.skip (2 + suffix.length)
      if next.rest.head? != some '>' then fail "did not find the expected '>'"
      pure (Token.tag "" (← tagBytes suffix), next.skip 1)
    | _ => do
      let handle := (tagHandle cursor).getD []
      let next := cursor.skip handle.length
      let more := next.rest.takeWhile (isTagChar false)
      if handle.length > 1 && handle.getLast? == some '!' then
        if more.isEmpty then fail "did not find expected tag URI"
        pure (Token.tag (.ofList handle) (← tagBytes more), next.skip more.length)
      else
        let suffix ← tagBytes (handle.drop 1 ++ more)
        let token := if suffix.isEmpty then Token.tag "" (.ofString "!") else Token.tag "!" suffix
        pure (token, next.skip more.length)
  if isSeparated next.rest || (flow && next.rest.head? == some ',') then return (token, next)
  else fail "did not find expected whitespace or line break"

/-! ### Directives -/

/-- A number of at most nine digits. -/
def versionNumber (cursor : Cursor) : Except YamlError (Nat × Cursor) :=
  let digits := cursor.rest.takeWhile Char.isDigit
  if digits.isEmpty then fail "did not find expected version number"
  else if digits.length > 9 then fail "found extremely long version number"
  else .ok (digits.foldl (fun n d => 10 * n + (d.toNat - 48)) 0, cursor.skip digits.length)

/-- A directive at its percent sign; it takes the whole line. -/
def directive (cursor : Cursor) : Except YamlError (Token × Cursor) := do
  let cursor := cursor.skip 1
  let name := cursor.rest.takeWhile isWord
  let cursor := cursor.skip name.length
  if name.isEmpty then fail "could not find expected directive name"
  if !isSeparated cursor.rest then fail "found unexpected non-alphabetical character"
  let cursor := cursor.skipWhile isGap
  let (token, cursor) ← match String.ofList name with
    | "YAML" => do
      let (major, cursor) ← versionNumber cursor
      if cursor.rest.head? != some '.' then fail "did not find expected digit or '.' character"
      let (minor, cursor) ← versionNumber (cursor.skip 1)
      pure (Token.version major minor, cursor)
    | "TAG" => do
      let handle := (tagHandle cursor).getD []
      if handle.isEmpty || (handle.length > 1 && handle.getLast? != some '!') then
        fail "did not find expected '!'"
      let cursor := cursor.skip handle.length
      if !cursor.rest.head?.any isGap then fail "did not find expected whitespace"
      let cursor := cursor.skipWhile isGap
      let stem := cursor.rest.takeWhile (isTagChar true)
      if stem.isEmpty then fail "did not find expected tag URI"
      let cursor := cursor.skip stem.length
      if !isSeparated cursor.rest then fail "did not find expected whitespace or line break"
      pure (Token.tagHandle (.ofList handle) (← tagBytes stem), cursor)
    | _ => fail "found unknown directive name"
  return (token, ← cursor.skipComment)

end VirtualShell.Yaml
