import VirtualShell.Number.Binary64

/-!
The shortest decimal that reads back as a given value, and the layouts in which it is written. Of the
decimals with that few digits the one nearest to the value is taken.
-/
namespace VirtualShell.Number

/-- A decimal `digits * 10 ^ exponent`. -/
structure Decimal where
  digits : Nat
  exponent : Int
  deriving DecidableEq, Repr

namespace Binary64

/-- How many powers of ten lie at or below `num / den`, less one: its exponent in scientific form. -/
def scientificExponent (num den : Nat) : Int :=
  let guess : Int := ((Nat.toDigits 10 num).length : Int) - (Nat.toDigits 10 den).length
  let reaches (e : Int) : Bool :=
    if e ≥ 0 then num ≥ den * Nat.pow 10 e.toNat else num * Nat.pow 10 (-e).toNat ≥ den
  if reaches guess then guess else guess - 1

/-- Whether `digits * 10 ^ exponent` rounds to `mantissa * 2 ^ power`. -/
def readsBack (mantissa : Nat) (power : Int) (d : Decimal) : Bool :=
  match ofDecimal false d.digits d.exponent with
  | .finite _ m e => m == mantissa && e == power
  | _ => false

/-- The better of the two neighbours of `num / den` among the decimals of one exponent. -/
def neighbour (mantissa : Nat) (power : Int) (exponent : Int) : Option Decimal :=
  let (num, den) := ratio mantissa power
  let (num, den) :=
    if exponent ≥ 0 then (num, den * Nat.pow 10 exponent.toNat) else (num * Nat.pow 10 (-exponent).toNat, den)
  let low := num / den
  let below : Decimal := ⟨low, exponent⟩
  let above : Decimal := ⟨low + 1, exponent⟩
  let nearest := if roundHalfEven num den = low then (below, above) else (above, below)
  if readsBack mantissa power nearest.1 then some nearest.1
  else if readsBack mantissa power nearest.2 then some nearest.2
  else none

/-- A decimal without trailing zeros among its digits. -/
def strip (fuel : Nat) (d : Decimal) : Decimal :=
  match fuel with
  | 0 => d
  | fuel + 1 => if d.digits % 10 = 0 && d.digits ≠ 0 then strip fuel ⟨d.digits / 10, d.exponent + 1⟩ else d

/-- The shortest decimal of a finite magnitude, without trailing zeros. -/
def shortest (mantissa : Nat) (power : Int) : Decimal :=
  if mantissa = 0 then ⟨0, 0⟩
  else
    let (num, den) := ratio mantissa power
    let top := scientificExponent num den
    let tries := (List.range 17).filterMap fun (n : Nat) => neighbour mantissa power (top - n)
    strip 20 (tries.head?.getD ⟨mantissa, 0⟩)

end Binary64

/-- How numbers are laid out around their digits. -/
structure Layout where
  /-- Scientific exponents below this one, and above `highest`, are written out. -/
  lowest : Int
  highest : Int
  /-- The sign of an exponent that is not negative. -/
  plus : String
  /-- What follows the digits of a whole number. -/
  whole : String
  nan : String
  infinity : String

namespace Layout

private def digitsOf (n : Nat) : List Char := Nat.toDigits 10 n

private def zeros (n : Nat) : List Char := List.replicate n '0'

/-- A decimal without exponent mark. -/
def positional (layout : Layout) (d : Decimal) : String :=
  let cs := digitsOf d.digits
  if d.exponent ≥ 0 then .ofList (cs ++ zeros d.exponent.toNat) ++ layout.whole
  else
    let places := (-d.exponent).toNat
    if places < cs.length then
      .ofList (cs.take (cs.length - places) ++ '.' :: cs.drop (cs.length - places))
    else .ofList ('0' :: '.' :: zeros (places - cs.length) ++ cs)

/-- A decimal as one digit, the others after a point, and an exponent. -/
def scientific (layout : Layout) (d : Decimal) : String :=
  let cs := digitsOf d.digits
  let exponent : Int := d.exponent + cs.length - 1
  let lead := match cs with
    | c :: c' :: rest => c :: '.' :: c' :: rest
    | few => few
  let mark := if exponent < 0 then "e-" else "e" ++ layout.plus
  .ofList lead ++ mark ++ toString exponent.natAbs

/-- The text of a value. -/
def write (layout : Layout) : Binary64 → String
  | .nan => layout.nan
  | .infinite negative => (if negative then "-" else "") ++ layout.infinity
  | .finite negative mantissa power =>
    let d := Binary64.shortest mantissa power
    let exponent : Int := d.exponent + (digitsOf d.digits).length - 1
    let body := if layout.lowest ≤ exponent && exponent ≤ layout.highest then layout.positional d
      else layout.scientific d
    (if negative then "-" else "") ++ body

end Layout

/-- One place after the point, a half going to the even neighbour, of `num / den`. -/
def oneDecimal (num den : Nat) : String :=
  let tenths := roundHalfEven (10 * num) den
  toString (tenths / 10) ++ "." ++ toString (tenths % 10)

end VirtualShell.Number
