import VirtualShell.Json.Basic

/-! JSON text: on one line, or spread over lines with two blanks of indentation. -/
namespace VirtualShell.Json

/-- Numbers are positional from `1e-5` up to `1e16`; whole ones keep a `.0`, exponents a sign. -/
def numberLayout : Number.Layout := ⟨-5, 15, "+", ".0", "null", "null"⟩

def hexDigit (n : Nat) : Char := (Nat.digitChar n)

/-- The characters that stand for one character between quotes. -/
def escapeChar (c : Char) : List Char :=
  if c = '\"' then ['\\', '\"']
  else if c = '\\' then ['\\', '\\']
  else if c = '\n' then ['\\', 'n']
  else if c = '\t' then ['\\', 't']
  else if c = '\r' then ['\\', 'r']
  else if c.toNat = 8 then ['\\', 'b']
  else if c.toNat = 12 then ['\\', 'f']
  else if c.toNat < 32 then ['\\', 'u', '0', '0', hexDigit (c.toNat / 16), hexDigit (c.toNat % 16)]
  else [c]

/-- A text between quotes. -/
def quote (s : String) : String := .ofList ('\"' :: s.toList.flatMap escapeChar ++ ['\"'])

def numberText : JsonNumber → String
  | .natural n => toString n.toNat
  | .negative n => "-" ++ toString n.toNat
  | .float x => numberLayout.write x

mutual

/-- JSON text without any space. -/
def compact : Json → String
  | .null => "null"
  | .bool b => if b then "true" else "false"
  | .number n => numberText n
  | .string s => quote s
  | .array items => "[" ++ compactItems items ++ "]"
  | .object members => "\x7b" ++ compactMembers members ++ "\x7d"

def compactItems : List Json → String
  | [] => ""
  | [x] => compact x
  | x :: rest => compact x ++ "," ++ compactItems rest

def compactMembers : List (String × Json) → String
  | [] => ""
  | [(k, x)] => quote k ++ ":" ++ compact x
  | (k, x) :: rest => quote k ++ ":" ++ compact x ++ "," ++ compactMembers rest

end

def indent (depth : Nat) : String := .ofList ('\n' :: List.replicate (2 * depth) ' ')

mutual

/-- JSON text with every item and member on a line of its own. -/
def pretty (depth : Nat) : Json → String
  | .array [] => "[]"
  | .object [] => "\x7b\x7d"
  | .array items => "[" ++ prettyItems (depth + 1) items ++ indent depth ++ "]"
  | .object members => "\x7b" ++ prettyMembers (depth + 1) members ++ indent depth ++ "\x7d"
  | .null => "null"
  | .bool b => if b then "true" else "false"
  | .number n => numberText n
  | .string s => quote s

def prettyItems (depth : Nat) : List Json → String
  | [] => ""
  | [x] => indent depth ++ pretty depth x
  | x :: rest => indent depth ++ pretty depth x ++ "," ++ prettyItems depth rest

def prettyMembers (depth : Nat) : List (String × Json) → String
  | [] => ""
  | [(k, x)] => indent depth ++ quote k ++ ": " ++ pretty depth x
  | (k, x) :: rest => indent depth ++ quote k ++ ": " ++ pretty depth x ++ "," ++ prettyMembers depth rest

end

end VirtualShell.Json
