import VirtualShell.Yaml.Token

/-!
How scalars are read: plain ones, quoted ones, and blocks of lines. Within the first two a line break is a
blank, and only the breaks beyond the first are kept.
-/
namespace VirtualShell.Yaml

/-- The blanks and line breaks between two parts of a scalar. -/
structure Gap where
  /-- The blanks before any line break. -/
  blanks : List Char
  broken : Bool
  firstBreak : List Char
  moreBreaks : List Char

namespace Gap

def none : Gap := ⟨[], false, [], []⟩

/-- What stands for a gap in the text: one line break is a blank, of several all but the first are kept. -/
def text (gap : Gap) : List Char :=
  if !gap.broken then gap.blanks
  else if gap.firstBreak.head? == some '\n' then
    if gap.moreBreaks.isEmpty then [' '] else gap.moreBreaks
  else gap.firstBreak ++ gap.moreBreaks

/--
Takes the blanks and line breaks that come next. A tab that stands where only indentation can, to the left
of `column`, is refused.
-/
def scan (column : Nat) : Nat → Gap → Cursor → Except YamlError (Gap × Cursor)
  | 0, gap, cursor => .ok (gap, cursor)
  | fuel + 1, gap, cursor =>
    match cursor.rest with
    | [] => .ok (gap, cursor)
    | c :: _ =>
      if isGap c then
        if !gap.broken then scan column fuel { gap with blanks := gap.blanks ++ [c] } (cursor.skip 1)
        else if c == '\t' && cursor.column < column then
          fail "found a tab character that violates indentation"
        else scan column fuel gap (cursor.skip 1)
      else if isBreak c then
        let (kept, next) := cursor.takeBreak
        if gap.broken then scan column fuel { gap with moreBreaks := gap.moreBreaks ++ kept } next
        else scan column fuel { gap with blanks := [], broken := true, firstBreak := kept } next
      else .ok (gap, cursor)

end Gap

/-- The signs that end a plain scalar within brackets. -/
def flowSigns : List Char := [',', '[', ']', '\x7b', '\x7d']

/-- A stretch of a plain scalar without blanks. -/
def plainRun (flow : Bool) : List Char → Except YamlError (List Char)
  | [] => .ok []
  | c :: rest =>
    if isGap c || isBreak c then .ok []
    else if flow && c == ':' && rest.head?.any fun next => next == '?' || flowSigns.contains next then
      fail "found unexpected ':'"
    else if (c == ':' && isSeparated rest) || (flow && flowSigns.contains c) then .ok []
    else (plainRun flow rest).map (c :: ·)

/--
The parts of a plain scalar from here on; also whether the last thing passed is a line break. The fuel is
more than the characters that follow.
-/
def plainParts (flow : Bool) (column : Nat) : Nat → List (List Char) → Gap → Cursor →
    Except YamlError (List (List Char) × Bool × Cursor)
  | 0, parts, gap, cursor => .ok (parts, gap.broken, cursor)
  | fuel + 1, parts, gap, cursor =>
    if cursor.atDocumentMark || cursor.rest.head? == some '#' then .ok (parts, gap.broken, cursor)
    else do
      let run ← plainRun flow cursor.rest
      let (parts, gap) := if run.isEmpty then (parts, gap) else (run :: gap.text :: parts, Gap.none)
      let cursor := cursor.skip run.length
      if !(cursor.rest.head?.any fun c => isGap c || isBreak c) then return (parts, gap.broken, cursor)
      let (gap, cursor) ← Gap.scan column fuel Gap.none cursor
      if !flow && cursor.column < column then return (parts, gap.broken, cursor)
      plainParts flow column fuel parts gap cursor

/-- A plain scalar whose later lines are indented to `column` at least. -/
def plainScalar (flow : Bool) (column : Nat) (cursor : Cursor) :
    Except YamlError (Token × Bool × Cursor) := do
  let (parts, broken, cursor) ← plainParts flow column (cursor.rest.length + 1) [] Gap.none cursor
  return (.scalar (.ofList parts.reverse.flatten) .plain, broken, cursor)

/-- The character behind a backslash that stands for one character. -/
def simpleEscape? (c : Char) : Option Char :=
  match c with
  | '0' => some '\x00'
  | 'a' => some '\x07'
  | 'b' => some '\x08'
  | 't' => some '\t'
  | '\t' => some '\t'
  | 'n' => some '\n'
  | 'v' => some '\x0b'
  | 'f' => some '\x0c'
  | 'r' => some '\r'
  | 'e' => some '\x1b'
  | ' ' => some ' '
  | '\"' => some '\"'
  | '/' => some '/'
  | '\\' => some '\\'
  | 'N' => some '\u0085'
  | '_' => some '\u00a0'
  | 'L' => some '\u2028'
  | 'P' => some '\u2029'
  | _ => none

/-- How many digits follow the letter of an escape by code point. -/
def escapeDigits? (c : Char) : Option Nat :=
  match c with
  | 'x' => some 2
  | 'u' => some 4
  | 'U' => some 8
  | _ => none

def codePoint (digits : List Char) (wanted : Nat) : Except YamlError Char := do
  let values ← digits.mapM fun d => match Text.digitValue? 16 d with
    | some v => pure v
    | none => fail "did not find expected hexdecimal number"
  if values.length < wanted then fail "did not find expected hexdecimal number"
  let n := values.foldl (fun n v => 16 * n + v) 0
  if (0xD800 ≤ n && n ≤ 0xDFFF) || n > 0x10FFFF then
    fail "found invalid Unicode character escape code"
  return Char.ofNat n

/-- A stretch of a quoted scalar within a line. -/
structure Run where
  text : List Char
  /-- How many characters it takes. -/
  length : Nat
  /-- Whether it ends in a backslash before the line break. -/
  continued : Bool

def Run.cons (c : Char) (length : Nat) (run : Run) : Run :=
  { run with text := c :: run.text, length := length + run.length }

/-- A stretch of text between single quotes; a doubled quote is one. -/
def singleRun : List Char → Run
  | '\'' :: '\'' :: rest => (singleRun rest).cons '\'' 2
  | c :: rest =>
    if c == '\'' || isGap c || isBreak c then ⟨[], 0, false⟩ else (singleRun rest).cons c 1
  | [] => ⟨[], 0, false⟩

/-- A stretch of text between double quotes. -/
def doubleRun : Nat → List Char → Except YamlError Run
  | 0, _ => .ok ⟨[], 0, false⟩
  | fuel + 1, '\\' :: c :: rest =>
    if isBreak c then .ok ⟨[], 1, true⟩
    else match simpleEscape? c, escapeDigits? c with
      | some c, _ => (doubleRun fuel rest).map (·.cons c 2)
      | none, some n => do
        let c ← codePoint (rest.take n) n
        return (← doubleRun fuel (rest.drop n)).cons c (2 + n)
      | none, none => fail "found unknown escape character"
  | _ + 1, ['\\'] => fail "found unknown escape character"
  | fuel + 1, c :: rest =>
    if c == '\"' || isGap c || isBreak c then .ok ⟨[], 0, false⟩
    else (doubleRun fuel rest).map (·.cons c 1)
  | _ + 1, [] => .ok ⟨[], 0, false⟩

/-- The parts of a quoted scalar up to its closing quote. The fuel is more than the characters that follow. -/
def quotedParts (quote : Char) : Nat → List (List Char) → Cursor →
    Except YamlError (List (List Char) × Cursor)
  | 0, _, _ => fail "found unexpected end of stream"
  | fuel + 1, parts, cursor => do
    if cursor.atDocumentMark then fail "found unexpected document indicator"
    if cursor.rest.isEmpty then fail "found unexpected end of stream"
    let run ← if quote == '\'' then pure (singleRun cursor.rest)
      else doubleRun fuel cursor.rest
    let parts := run.text :: parts
    let cursor := cursor.skip run.length
    let cursor := if run.continued then cursor.skipBreak else cursor
    if cursor.rest.head? == some quote then return (parts, cursor.skip 1)
    let start : Gap := { Gap.none with broken := run.continued }
    let (gap, cursor) ← Gap.scan 0 fuel start cursor
    quotedParts quote fuel (gap.text :: parts) cursor

/-- A quoted scalar at its opening quote. -/
def quotedScalar (quote : Char) (cursor : Cursor) : Except YamlError (Token × Cursor) := do
  let (parts, next) ← quotedParts quote (cursor.rest.length + 1) [] (cursor.skip 1)
  return (.scalar (.ofList parts.reverse.flatten) (if quote == '\'' then .single else .double), next)

/-! ### Block scalars -/

/-- What becomes of the line breaks at the end of a block scalar. -/
inductive Chomping where
  | strip
  | clip
  | keep
  deriving DecidableEq

def chompingOf? (c : Char) : Option Chomping :=
  if c == '+' then some .keep else if c == '-' then some .strip else none

/-- The header of a block scalar behind its sign: chomping, and how far the text is indented if told. -/
def blockHeader (cursor : Cursor) : Except YamlError ((Chomping × Option Nat) × Cursor) := do
  let chomping (cursor : Cursor) : Option Chomping × Cursor :=
    match cursor.rest.head?.bind chompingOf? with
    | some chomping => (some chomping, cursor.skip 1)
    | none => (none, cursor)
  let (before, cursor) := chomping cursor
  let (increment, cursor) ← match cursor.rest with
    | c :: _ =>
      if c == '0' then fail "found an indentation indicator equal to 0"
      else if c.isDigit then pure (some (c.toNat - 48), cursor.skip 1)
      else pure (none, cursor)
    | [] => pure (none, cursor)
  let (after, cursor) := if before.isNone && increment.isSome then chomping cursor else (none, cursor)
  return (((before.or after).getD .clip, increment), ← cursor.skipComment)

/-- The blank lines that come next, and the deepest column reached in them. -/
def blankLines (indent : Option Nat) : Nat → Nat → List Char → Cursor →
    Except YamlError ((List Char × Nat) × Cursor)
  | 0, deepest, breaks, cursor => .ok ((breaks, deepest), cursor)
  | fuel + 1, deepest, breaks, cursor => do
    let spaces := (cursor.rest.takeWhile (· == ' ')).length
    let cursor := cursor.skip (match indent with
      | some n => min spaces (n - cursor.column)
      | none => spaces)
    let deepest := max deepest cursor.column
    match cursor.rest with
    | c :: _ =>
      if c == '\t' && (match indent with
        | some n => cursor.column < n
        | none => true) then
        fail "found a tab character where an indentation space is expected"
      else if isBreak c then
        let (kept, cursor) := cursor.takeBreak
        blankLines indent fuel deepest (breaks ++ kept) cursor
      else return ((breaks, deepest), cursor)
    | [] => return ((breaks, deepest), cursor)

/-- What has been read of a block scalar. -/
structure BlockText where
  /-- The pieces, the latest first. -/
  parts : List (List Char)
  /-- The break at the end of the last line. -/
  lastBreak : List Char
  /-- Whether the last line started with a blank. -/
  wasBlank : Bool
  /-- The breaks of the blank lines since. -/
  breaks : List Char

/-- The lines of a block scalar from here on. The fuel is more than the characters that follow. -/
def blockLines (folded : Bool) (indent : Nat) : Nat → BlockText → Cursor →
    Except YamlError (BlockText × Cursor)
  | 0, text, cursor => .ok (text, cursor)
  | fuel + 1, text, cursor => do
    if cursor.column != indent || cursor.rest.isEmpty then return (text, cursor)
    let isBlank := cursor.rest.head?.any isGap
    let folds := folded && text.lastBreak.head? == some '\n' && !text.wasBlank && !isBlank
    let joint := if !folds then text.lastBreak else if text.breaks.isEmpty then [' '] else []
    let line := cursor.rest.takeWhile fun c => !isBreak c
    let (kept, cursor) := (cursor.skip line.length).takeBreak
    let ((breaks, _), cursor) ← blankLines (some indent) fuel 0 [] cursor
    let parts := line :: text.breaks :: joint :: text.parts
    blockLines folded indent fuel ⟨parts, kept, isBlank, breaks⟩ cursor

/-- A block scalar at its sign, within lines that are indented by `outer` columns if at all. -/
def blockScalar (folded : Bool) (outer : Option Nat) (cursor : Cursor) :
    Except YamlError (Token × Cursor) := do
  let ((chomping, increment), cursor) ← blockHeader (cursor.skip 1)
  let told := increment.map fun n => outer.getD 0 + n
  let ((breaks, deepest), cursor) ← blankLines told (cursor.rest.length + 1) 0 [] cursor
  let indent := told.getD (max deepest (max ((outer.map (· + 1)).getD 0) 1))
  let (text, cursor) ← blockLines folded indent (cursor.rest.length + 1) ⟨[], [], false, breaks⟩ cursor
  let tail := match chomping with
    | .strip => []
    | .clip => text.lastBreak
    | .keep => text.lastBreak ++ text.breaks
  let style := if folded then Style.folded else .literal
  return (.scalar (.ofList (text.parts.reverse.flatten ++ tail)) style, cursor)

end VirtualShell.Yaml
