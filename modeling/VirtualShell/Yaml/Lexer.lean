import VirtualShell.Yaml.ScalarToken

/-!
A YAML text as a list of tokens. Indentation opens and closes block collections. A key of a mapping is only
known by the colon behind it, so the token for it is put in later, at the place where it may have started.
-/
namespace VirtualShell.Yaml

/-- A place where a key on a single line may have started. -/
structure Candidate where
  /-- Nothing but a key can stand there. -/
  required : Bool
  /-- The number of tokens before it. -/
  tokens : Nat
  offset : Nat
  line : Nat
  column : Nat

structure Lexer where
  cursor : Cursor
  /-- The tokens so far, the latest first. -/
  tokens : List Token
  count : Nat
  /-- The columns of the open block collections, the innermost first. -/
  indents : List Nat
  candidate : Option Candidate
  /-- What was the candidate outside of each open bracket, the innermost first. -/
  outer : List (Option Candidate)
  keyAllowed : Bool
  finished : Bool

namespace Lexer

def start (text : List Char) : Lexer := ⟨.start text, [], 0, [], none, [], true, false⟩

/-- Whether some bracket is open. -/
def inFlow (lexer : Lexer) : Bool := !lexer.outer.isEmpty

def emit (lexer : Lexer) (token : Token) : Lexer :=
  { lexer with tokens := token :: lexer.tokens, count := lexer.count + 1 }

/-- Puts a token behind the first `position` ones. -/
def insertAt (lexer : Lexer) (position : Nat) (token : Token) : Lexer :=
  let later := lexer.count - position
  { lexer with
    tokens := lexer.tokens.take later ++ token :: lexer.tokens.drop later
    count := lexer.count + 1 }

/-- Opens a block collection at a column further right than all others. -/
def indent (lexer : Lexer) (column position : Nat) (token : Token) : Lexer :=
  if lexer.inFlow || lexer.indents.head?.any (column ≤ ·) then lexer
  else { lexer.insertAt position token with indents := column :: lexer.indents }

/-- Closes the block collections that stand further right than a column. -/
def closeBeyond (column : Nat) : List Nat → Lexer → Lexer
  | [], lexer => lexer
  | i :: rest, lexer =>
    if column < i then closeBeyond column rest { lexer.emit .blockEnd with indents := rest } else lexer

def dedent (lexer : Lexer) (column : Nat) : Lexer :=
  if lexer.inFlow then lexer else closeBeyond column lexer.indents lexer

/-- Closes all block collections. -/
def closeAll (lexer : Lexer) : Lexer :=
  if lexer.inFlow then lexer
  else { lexer.indents.foldl (fun lexer _ => lexer.emit .blockEnd) lexer with indents := [] }

def noKey : Except YamlError Lexer := fail "could not find expected ':'"

/-- Gives up the candidate. -/
def dropCandidate (lexer : Lexer) : Except YamlError Lexer :=
  if lexer.candidate.any (·.required) then noKey else .ok { lexer with candidate := none }

/-- Notes that a key may start here. -/
def noteCandidate (lexer : Lexer) : Except YamlError Lexer := do
  if !lexer.keyAllowed then return lexer
  let lexer ← lexer.dropCandidate
  let at_ := lexer.cursor
  let required := !lexer.inFlow && lexer.indents.head? == some at_.column
  return { lexer with candidate := some ⟨required, lexer.count, at_.offset, at_.line, at_.column⟩ }

/-- Whether a key that started at a candidate is too long by now, or no longer on one line. -/
def isStale (cursor : Cursor) (candidate : Candidate) : Bool :=
  candidate.line < cursor.line || candidate.offset + 1024 < cursor.offset

/-- Gives up the candidates that are stale. -/
def dropStale (lexer : Lexer) : Except YamlError Lexer :=
  let fresh (candidate : Option Candidate) : Option Candidate :=
    candidate.filter fun c => !isStale lexer.cursor c
  let isBroken (candidate : Option Candidate) : Bool :=
    candidate.any fun c => c.required && isStale lexer.cursor c
  if (lexer.candidate :: lexer.outer).any isBroken then noKey
  else .ok { lexer with candidate := fresh lexer.candidate, outer := lexer.outer.map fresh }

/-- Passes over blanks, comments and line breaks, and over a byte order mark that starts a line. -/
def skipBlank : Nat → Lexer → Lexer
  | 0, lexer => lexer
  | fuel + 1, lexer =>
    let tabs := lexer.inFlow || !lexer.keyAllowed
    let cursor := lexer.cursor
    let cursor := if cursor.column == 0 && cursor.rest.head? == some '\ufeff' then cursor.skip 1 else cursor
    let cursor := cursor.skipWhile fun c => c == ' ' || (tabs && c == '\t')
    let cursor := if cursor.rest.head? == some '#' then cursor.skipWhile fun c => !isBreak c else cursor
    if cursor.rest.head?.any isBreak then
      skipBlank fuel { lexer with cursor := cursor.skipBreak, keyAllowed := lexer.keyAllowed || !lexer.inFlow }
    else { lexer with cursor }

/-- Takes a token of `n` characters. -/
def sign (lexer : Lexer) (n : Nat) (token : Token) : Lexer :=
  { lexer.emit token with cursor := lexer.cursor.skip n }

/-- Takes a token that was read from the text. -/
def take (lexer : Lexer) (read : Token × Cursor) : Lexer :=
  { lexer.emit read.1 with cursor := read.2 }

def endStream (lexer : Lexer) : Except YamlError Lexer := do
  let lexer ← lexer.closeAll.dropCandidate
  return { lexer.emit .streamEnd with finished := true }

def readDirective (lexer : Lexer) : Except YamlError Lexer := do
  let lexer ← lexer.closeAll.dropCandidate
  return { lexer.take (← directive lexer.cursor) with keyAllowed := false }

def documentMark (lexer : Lexer) (token : Token) : Except YamlError Lexer := do
  let lexer ← lexer.closeAll.dropCandidate
  return { lexer.sign 3 token with keyAllowed := false }

def openFlow (lexer : Lexer) (token : Token) : Except YamlError Lexer := do
  let lexer ← lexer.noteCandidate
  return { lexer.sign 1 token with
    outer := lexer.candidate :: lexer.outer, candidate := none, keyAllowed := true }

def closeFlow (lexer : Lexer) (token : Token) : Except YamlError Lexer := do
  let lexer ← lexer.dropCandidate
  let (candidate, outer) := match lexer.outer with
    | candidate :: outer => (candidate, outer)
    | [] => (lexer.candidate, [])
  return { lexer.sign 1 token with candidate, outer, keyAllowed := false }

def readComma (lexer : Lexer) : Except YamlError Lexer := do
  let lexer ← lexer.dropCandidate
  return { lexer.sign 1 .comma with keyAllowed := true }

def readEntry (lexer : Lexer) : Except YamlError Lexer := do
  if !lexer.inFlow && !lexer.keyAllowed then
    fail "block sequence entries are not allowed in this context"
  let lexer := lexer.indent lexer.cursor.column lexer.count .blockSequence
  let lexer ← lexer.dropCandidate
  return { lexer.sign 1 .entry with keyAllowed := true }

def readKey (lexer : Lexer) : Except YamlError Lexer := do
  if !lexer.inFlow && !lexer.keyAllowed then fail "mapping keys are not allowed in this context"
  let lexer := lexer.indent lexer.cursor.column lexer.count .blockMapping
  let lexer ← lexer.dropCandidate
  return { lexer.sign 1 .key with keyAllowed := !lexer.inFlow }

/-- A colon: what started at the candidate is a key. -/
def readValue (lexer : Lexer) : Except YamlError Lexer :=
  match lexer.candidate with
  | some c =>
    let lexer := (lexer.insertAt c.tokens .key).indent c.column c.tokens .blockMapping
    .ok { lexer.sign 1 .value with candidate := none, keyAllowed := false }
  | none =>
    if !lexer.inFlow && !lexer.keyAllowed then fail "mapping values are not allowed in this context"
    else
      let lexer := lexer.indent lexer.cursor.column lexer.count .blockMapping
      .ok { lexer.sign 1 .value with keyAllowed := !lexer.inFlow }

/-- A token that can be part of a key. -/
def readAtom (lexer : Lexer) (read : Cursor → Except YamlError (Token × Cursor)) :
    Except YamlError Lexer := do
  let lexer ← lexer.noteCandidate
  return { lexer.take (← read lexer.cursor) with keyAllowed := false }

def readName (lexer : Lexer) (token : String → Token) : Except YamlError Lexer :=
  lexer.readAtom fun cursor => do
    let (name, next) ← anchorName (cursor.skip 1)
    return (token name, next)

def readBlock (lexer : Lexer) (folded : Bool) : Except YamlError Lexer := do
  let lexer ← lexer.dropCandidate
  return { lexer.take (← blockScalar folded lexer.indents.head? lexer.cursor) with keyAllowed := true }

def readPlain (lexer : Lexer) : Except YamlError Lexer := do
  let lexer ← lexer.noteCandidate
  let column := (lexer.indents.head?.map (· + 1)).getD 0
  let (token, broken, next) ← plainScalar lexer.inFlow column lexer.cursor
  return { lexer.take (token, next) with keyAllowed := broken }

/-- The signs that no plain scalar starts with. -/
def isSign (c : Char) : Bool :=
  ['-', '?', ':', ',', '[', ']', '\x7b', '\x7d', '#', '&', '*', '!', '|', '>', '\'', '\"', '%', '@',
    '`'].contains c

/-- Reads the token that starts here. -/
def readToken (lexer : Lexer) : Except YamlError Lexer :=
  let cursor := lexer.cursor
  let flow := lexer.inFlow
  if cursor.rest.isEmpty then lexer.endStream
  else if cursor.column == 0 && cursor.rest.head? == some '%' then lexer.readDirective
  else if cursor.atMark '-' then lexer.documentMark .documentStart
  else if cursor.atMark '.' then lexer.documentMark .documentEnd
  else match cursor.rest with
    | [] => lexer.endStream
    | c :: rest =>
      let parted := isSeparated rest
      if c == '[' then lexer.openFlow .flowSequence
      else if c == '\x7b' then lexer.openFlow .flowMapping
      else if c == ']' then lexer.closeFlow .flowSequenceEnd
      else if c == '\x7d' then lexer.closeFlow .flowMappingEnd
      else if c == ',' then lexer.readComma
      else if c == '-' && parted then lexer.readEntry
      else if c == '?' && (flow || parted) then lexer.readKey
      else if c == ':' && (flow || parted) then lexer.readValue
      else if c == '*' then lexer.readName .alias
      else if c == '&' then lexer.readName .anchor
      else if c == '!' then lexer.readAtom (tagToken flow)
      else if c == '|' && !flow then lexer.readBlock false
      else if c == '>' && !flow then lexer.readBlock true
      else if c == '\'' || c == '\"' then lexer.readAtom (quotedScalar c)
      else if !(isGap c || isBreak c || isSign c) || (c == '-' && !rest.head?.any isGap)
          || (!flow && (c == '?' || c == ':') && !parted) then lexer.readPlain
      else fail "found character that cannot start any token"

/-- Reads the next token, with the ends of blocks before it. -/
def step (lexer : Lexer) : Except YamlError Lexer := do
  let lexer ← (lexer.skipBlank (lexer.cursor.rest.length + 1)).dropStale
  (lexer.dedent lexer.cursor.column).readToken

/-- Reads on until the text ends. -/
def run : Nat → Lexer → Except YamlError Lexer
  | 0, lexer => .ok lexer
  | fuel + 1, lexer => if lexer.finished then .ok lexer else do run fuel (← lexer.step)

end Lexer

/-- The tokens of a text. -/
def tokens (text : List Char) : Except YamlError (List Token) := do
  match text.find? fun c => !isAllowed c with
  | some c => throw (.badCharacter c)
  | none => return (← (Lexer.start text).run (text.length + 2)).tokens.reverse

end VirtualShell.Yaml
