import VirtualShell.Number.Binary64
import VirtualShell.Text.Digit
import VirtualShell.Yaml.Basic

/-! What a plain scalar stands for: nothing, a truth value, a number or a text. -/
namespace VirtualShell.Yaml

inductive Resolved where
  | null
  | bool (b : Bool)
  | natural (n : UInt64)
  /-- The number `-n`, with `n` from 1 to `2 ^ 63`. -/
  | negative (n : UInt64)
  /-- A whole number of more than 64 bits. -/
  | wide
  | float (x : Number.Binary64)
  | text
  deriving DecidableEq, Repr

namespace Resolved

def isNullWord (text : String) : Bool := ["null", "Null", "NULL", "~"].contains text

def boolOf? (text : String) : Option Bool :=
  if ["true", "True", "TRUE"].contains text then some true
  else if ["false", "False", "FALSE"].contains text then some false
  else none

def below (limit : Nat) (n : Option Nat) : Option Nat := n.filter (· < limit)

/-- A number after the mark of its base, if there is such a mark. -/
def marked? (digits : List Char) : Option Nat :=
  match digits with
  | '0' :: 'x' :: rest => Text.number? 16 rest
  | '0' :: 'o' :: rest => Text.number? 8 rest
  | '0' :: 'b' :: rest => Text.number? 2 rest
  | _ => none

def isSignChar (c : Char) : Bool := c == '+' || c == '-'

def unsigned (text : List Char) : List Char :=
  match text with
  | c :: rest => if isSignChar c then rest else text
  | [] => []

/-- Whether a text is digits after a needless zero, which makes it no number. -/
def isPadded (text : List Char) : Bool :=
  match unsigned text with
  | '0' :: d :: rest => (d :: rest).all Char.isDigit
  | _ => false

/-- The natural number below a limit that a text stands for; it may have a plus sign. -/
def natural? (limit : Nat) (text : List Char) : Option Nat :=
  let digits := match text with
    | '+' :: rest => rest
    | text => text
  match below limit (marked? digits) with
  | some n => some n
  | none => if isPadded text then none else below limit (Text.number? 10 digits)

/-- The number below a limit whose negative a text stands for. -/
def negative? (limit : Nat) (text : List Char) : Option Nat :=
  match text with
  | '-' :: digits =>
    match below limit (marked? digits) with
    | some n => some n
    | none => if isPadded text then none else below limit (Text.number? 10 digits)
  | _ => none

/-- The exponent at the end of a decimal. -/
def exponent? (text : List Char) : Option Int :=
  match text with
  | [] => some 0
  | mark :: rest =>
    if mark != 'e' && mark != 'E' then none
    else match rest with
      | '-' :: digits => (Text.number? 10 digits).map fun n => -(n : Int)
      | '+' :: digits => (Text.number? 10 digits).map Int.ofNat
      | digits => (Text.number? 10 digits).map Int.ofNat

/-- A decimal without sign, with digits on one side of the point at least. -/
def decimal? (negative : Bool) (text : List Char) : Option Number.Binary64 := do
  let whole := text.takeWhile Char.isDigit
  let rest := text.dropWhile Char.isDigit
  let (places, rest) := match rest with
    | '.' :: more => (more.takeWhile Char.isDigit, more.dropWhile Char.isDigit)
    | _ => ([], rest)
  let digits ← Text.number? 10 (whole ++ places)
  let exponent ← exponent? rest
  return .ofDecimal negative digits (exponent - places.length)

/-- The floating-point number that a text stands for; what is too large for one stays a text. -/
def float? (text : List Char) : Option Number.Binary64 :=
  let word := String.ofList text
  if [".inf", ".Inf", ".INF", "+.inf", "+.Inf", "+.INF"].contains word then some (.infinite false)
  else if ["-.inf", "-.Inf", "-.INF"].contains word then some (.infinite true)
  else if [".nan", ".NaN", ".NAN"].contains word then some .nan
  else
    let x := match text with
      | '-' :: rest => decimal? true rest
      | '+' :: rest => decimal? false rest
      | text => decimal? false text
    x.filter Number.Binary64.isFinite

/-- A whole number of any size that is told apart from other numbers. -/
def whole? (text : List Char) : Option Resolved :=
  match natural? UInt64.size text with
  | some n => some (.natural n.toUInt64)
  | none =>
    match negative? (1 <<< 63 + 1) text with
    | some n => some (if n = 0 then .natural 0 else .negative n.toUInt64)
    | none =>
      if (natural? (1 <<< 128) text).isSome || (negative? (1 <<< 127 + 1) text).isSome then some .wide else none

end Resolved

open Resolved in
/-- What a plain text stands for. -/
def resolve (text : String) : Resolved :=
  let cs := text.toList
  if text.isEmpty || isNullWord text then .null
  else match boolOf? text, whole? cs with
    | some b, _ => .bool b
    | none, some n => n
    | none, none =>
      if isPadded cs then .text
      else match float? cs with
        | some x => .float x
        | none => .text

end VirtualShell.Yaml
