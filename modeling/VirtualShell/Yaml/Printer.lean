import VirtualShell.Json.Basic
import VirtualShell.Yaml.Cursor
import VirtualShell.Yaml.Resolution

/-!
Values as YAML text, in blocks with two columns of indentation. A text is written plain where it reads back
as itself, else between quotes, and as a literal block if it has several lines.
-/
namespace VirtualShell.Yaml

/-- Numbers are positional from `1e-5` up to `1e16`; whole ones keep a `.0`. -/
def numberLayout : Number.Layout := ⟨-5, 15, "", ".0", ".nan", ".inf"⟩

def numberText : JsonNumber → String
  | .natural n => toString n.toNat
  | .negative n => "-" ++ toString n.toNat
  | .float x => numberLayout.write x

/-- The characters that are written as they are. -/
def isPrintable (c : Char) : Bool :=
  let n := c.toNat
  n == 0x0A || (0x20 ≤ n && n ≤ 0x7E) || (0xA0 ≤ n && n ≤ 0xD7FF) ||
  (0xE000 ≤ n && n ≤ 0xFFFD && n != 0xFEFF) || 0x10000 ≤ n

/-- The signs that mean something at the start of a plain scalar. -/
def leadingSigns : List Char :=
  ['#', ',', '[', ']', '\x7b', '\x7d', '&', '*', '!', '|', '>', '\'', '\"', '%', '@', '`']

/-- Whether a sign in a text would end it, or make it something else, if it stood plain. -/
def hasSigns (cs : List Char) : Bool :=
  let marked := ['-', '-', '-'].isPrefixOf cs || ['.', '.', '.'].isPrefixOf cs
  let atStart := match cs with
    | c :: rest => leadingSigns.contains c ||
        ((c == '?' || c == ':' || c == '-') && isSeparated rest)
    | [] => false
  let rec within : Char → List Char → Bool
    | _, [] => false
    | before, c :: rest =>
      (c == ':' && isSeparated rest) || (c == '#' && isSeparated [before]) || within c rest
  marked || atStart || match cs with
    | c :: rest => within c rest
    | [] => false

/-- Whether some character of the first class is followed by one of the second. -/
def hasPair (first second : Char → Bool) : List Char → Bool
  | a :: b :: rest => (first a && second b) || hasPair first second (b :: rest)
  | _ => false

/-- The ways in which a text can be written. -/
structure Ways where
  plain : Bool
  single : Bool
  literal : Bool

def isSpace (c : Char) : Bool := c == ' '

def ways (cs : List Char) : Ways :=
  if cs.isEmpty then ⟨true, true, false⟩
  else
    let edge (c : Option Char) : Bool := c.any fun c => isSpace c || isBreak c
    let clean := cs.all isPrintable && !hasPair isSpace isBreak cs
    let whole := clean && !hasPair isBreak isSpace cs
    ⟨whole && !edge cs.head? && !edge cs.getLast? && !cs.any isBreak && !hasSigns cs, whole,
      clean && !cs.getLast?.any isSpace⟩

/-- The style of a text; a `key` is on one line. -/
def styleOf (text : String) : Style :=
  let cs := text.toList
  let able := ways cs
  let quoted : Style := if able.single then .single else .double
  if cs.contains '\n' then if able.literal then .literal else .double
  else if resolve text != .text || Resolved.isPadded cs then quoted
  else if able.plain then .plain else quoted

def padding (n : Nat) : List Char := List.replicate n ' '

/-- Lines of which all that are not blank are indented; `fresh` at the start of a line. -/
def indented (n : Nat) : Bool → List Char → List Char
  | _, [] => []
  | fresh, c :: rest =>
    if isBreak c then c :: indented n true rest
    else (if fresh then padding n else []) ++ c :: indented n false rest

/-- A text between single quotes, with its later lines indented. -/
def singleQuoted (n : Nat) (cs : List Char) : List Char :=
  let doubled := cs.flatMap fun c => if c == '\'' then ['\'', '\''] else [c]
  let tail := if cs.getLast?.any isBreak then padding n else []
  '\'' :: indented n false doubled ++ tail ++ ['\'']

def hexDigits (width n : Nat) : List Char :=
  let digits := (Nat.toDigits 16 n).map Char.toUpper
  List.replicate (width - digits.length) '0' ++ digits

/-- A character between double quotes. -/
def escaped (c : Char) : List Char :=
  if c == '\"' || c == '\\' then ['\\', c]
  else if isPrintable c && !isBreak c then [c]
  else
    let n := c.toNat
    match [(0, '0'), (7, 'a'), (8, 'b'), (9, 't'), (10, 'n'), (11, 'v'), (12, 'f'), (13, 'r'), (27, 'e'),
        (0x85, 'N'), (0x2028, 'L'), (0x2029, 'P')].find? fun entry => entry.1 == n with
    | some (_, letter) => ['\\', letter]
    | none =>
      if n ≤ 0xFF then '\\' :: 'x' :: hexDigits 2 n
      else if n ≤ 0xFFFF then '\\' :: 'u' :: hexDigits 4 n
      else '\\' :: 'U' :: hexDigits 8 n

def doubleQuoted (cs : List Char) : List Char := '\"' :: cs.flatMap escaped ++ ['\"']

/-- How many of the breaks at the end of a literal block count. -/
def chompingSign (cs : List Char) : List Char :=
  match cs.reverse with
  | [] => ['-']
  | [c] => if isBreak c then ['+'] else ['-']
  | c :: d :: _ => if !isBreak c then ['-'] else if isBreak d then ['+'] else []

/-- A text as a literal block of lines indented to `n`. -/
def literalBlock (n : Nat) (cs : List Char) : List Char :=
  let hint := if cs.head?.any fun c => isSpace c || isBreak c then ['2'] else []
  '|' :: hint ++ chompingSign cs ++ '\n' :: indented n true cs

/-- A text, its later lines indented to `n`. -/
def scalarText (n : Nat) (text : String) : List Char :=
  let cs := text.toList
  match styleOf text with
  | .plain => cs
  | .single => singleQuoted n cs
  | .double => doubleQuoted cs
  | _ => literalBlock n cs

/-- Ends a line, unless it has just been ended by a block. -/
def endLine (cs : List Char) : List Char := if cs.getLast?.any isBreak then cs else cs ++ ['\n']

/-- Whether a key can stand before its colon on one line. -/
def isSimpleKey (key : String) : Bool := key.utf8ByteSize ≤ 128 && !key.toList.any isBreak

/-- A value without parts, and the end of its line. -/
def leaf (n : Nat) : Json → List Char
  | .null => ['n', 'u', 'l', 'l', '\n']
  | .bool b => (if b then "true\n" else "false\n").toList
  | .number x => endLine (numberText x).toList
  | .string s => endLine (scalarText n s)
  | .array _ => ['[', ']', '\n']
  | .object _ => ['\x7b', '\x7d', '\n']

mutual

/-- What follows a sign that stands alone in column `n`; the first line of a block goes on behind it. -/
def behindSign (n : Nat) : Json → List Char
  | .array [] => ' ' :: leaf (n + 2) (.array [])
  | .array xs => ' ' :: (items (n + 2) xs).drop (n + 2)
  | .object [] => ' ' :: leaf (n + 2) (.object [])
  | .object ms => ' ' :: (members (n + 2) ms).drop (n + 2)
  | value => ' ' :: leaf (n + 2) value

/-- What follows the colon of a key that stands in column `n`. -/
def behindKey (n : Nat) : Json → List Char
  | .array [] => ' ' :: leaf (n + 2) (.array [])
  | .array xs => '\n' :: items n xs
  | .object [] => ' ' :: leaf (n + 2) (.object [])
  | .object ms => '\n' :: members (n + 2) ms
  | value => ' ' :: leaf (n + 2) value

/-- The lines of items whose dashes stand in column `n`. -/
def items (n : Nat) : List Json → List Char
  | [] => []
  | x :: rest => padding n ++ '-' :: behindSign n x ++ items n rest

/-- The lines of entries that stand in column `n`. -/
def members (n : Nat) : List (String × Json) → List Char
  | [] => []
  | (key, x) :: rest =>
    let text := scalarText (n + 2) key
    padding n
      ++ (if isSimpleKey key then text ++ ':' :: behindKey n x
        else '?' :: ' ' :: endLine text ++ padding n ++ ':' :: behindSign n x)
      ++ members n rest

end

/-- The YAML text of a value. -/
def print : Json → String
  | .array [] => .ofList (leaf 2 (.array []))
  | .array xs => .ofList (items 0 xs)
  | .object [] => .ofList (leaf 2 (.object []))
  | .object ms => .ofList (members 0 ms)
  | value => .ofList (leaf 2 value)

end VirtualShell.Yaml
