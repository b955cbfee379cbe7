/-!
Binary floating point with 53 significant bits. Every operation is the exact rational result rounded
to the nearest value, a half going to the even neighbour.
-/
namespace VirtualShell.Number

/-- The nearest integer to `num / den`; a half goes to the even neighbour. -/
def roundHalfEven (num den : Nat) : Nat :=
  let quotient := num / den
  let twice := 2 * (num % den)
  if twice > den || (twice == den && quotient % 2 == 1) then quotient + 1 else quotient

/-- The floor of `num / (den * 2 ^ exponent)`. -/
def floorScaled (num den : Nat) (exponent : Int) : Nat :=
  if exponent ≥ 0 then num / (den <<< exponent.toNat) else (num <<< (-exponent).toNat) / den

/-- The nearest integer to `num / (den * 2 ^ exponent)`. -/
def roundScaled (num den : Nat) (exponent : Int) : Nat :=
  if exponent ≥ 0 then roundHalfEven num (den <<< exponent.toNat)
  else roundHalfEven (num <<< (-exponent).toNat) den

/--
A value of the format. A finite one stands for `± mantissa * 2 ^ exponent`, with the mantissa below
`2 ^ 53` and the least exponent that allows it, never under `-1074`; zero has exponent `-1074`.
-/
inductive Binary64 where
  | nan
  | infinite (negative : Bool)
  | finite (negative : Bool) (mantissa : Nat) (exponent : Int)
  deriving DecidableEq, Repr

namespace Binary64

def zero (negative : Bool) : Binary64 := .finite negative 0 (-1074)

/-- The value nearest to `± num / den`, infinite beyond the largest finite one. -/
def ofRatio (negative : Bool) (num den : Nat) : Binary64 :=
  if num = 0 then zero negative
  else
    let guess : Int := (Nat.log2 num : Int) - Nat.log2 den - 52
    let fit := if floorScaled num den guess < 1 <<< 52 then guess - 1 else guess
    let exponent := max fit (-1074)
    let mantissa := roundScaled num den exponent
    let (mantissa, exponent) :=
      if mantissa = 1 <<< 53 then (1 <<< 52, exponent + 1) else (mantissa, exponent)
    if exponent > 971 then .infinite negative else .finite negative mantissa exponent

/-- The value nearest to a natural number. -/
def ofNat (n : Nat) : Binary64 := ofRatio false n 1

/-- The value nearest to `± digits * 10 ^ exponent`. -/
def ofDecimal (negative : Bool) (digits : Nat) (exponent : Int) : Binary64 :=
  if digits = 0 then zero negative
  else
    let top := exponent + (Nat.toDigits 10 digits).length
    if top > 310 then .infinite negative
    else if top < -330 then zero negative
    else if exponent ≥ 0 then ofRatio negative (digits * Nat.pow 10 exponent.toNat) 1
    else ofRatio negative digits (Nat.pow 10 (-exponent).toNat)

/-- A finite value's magnitude as a ratio of natural numbers. -/
def ratio (mantissa : Nat) (exponent : Int) : Nat × Nat :=
  if exponent ≥ 0 then (mantissa <<< exponent.toNat, 1) else (mantissa, 1 <<< (-exponent).toNat)

/-- The product of two magnitudes, rounded once. -/
def mulMagnitude : Binary64 → Binary64 → Binary64
  | .finite _ m e, .finite _ n f =>
    let a := ratio m e
    let b := ratio n f
    ofRatio false (a.1 * b.1) (a.2 * b.2)
  | .nan, _ => .nan
  | _, .nan => .nan
  | _, _ => .infinite false

/-- The quotient of two finite magnitudes, rounded once; the divisor is not zero. -/
def divMagnitude : Binary64 → Binary64 → Binary64
  | .finite _ m e, .finite _ n f =>
    let a := ratio m e
    let b := ratio n f
    ofRatio false (a.1 * b.2) (a.2 * b.1)
  | _, _ => .nan

/-- The sum of two magnitudes, rounded once. -/
def addMagnitude : Binary64 → Binary64 → Binary64
  | .finite _ m e, .finite _ n f =>
    let a := ratio m e
    let b := ratio n f
    ofRatio false (a.1 * b.2 + b.1 * a.2) (a.2 * b.2)
  | .nan, _ => .nan
  | _, .nan => .nan
  | _, _ => .infinite false

/-- The value with its sign turned. -/
def neg : Binary64 → Binary64
  | .nan => .nan
  | .infinite s => .infinite !s
  | .finite s m e => .finite (!s) m e

def isFinite : Binary64 → Bool
  | .finite .. => true
  | _ => false

def isZero : Binary64 → Bool
  | .finite _ m _ => m == 0
  | _ => false

/-- Equality of numbers: both zeros are one number, and what is no number equals nothing. -/
def same (x y : Binary64) : Bool :=
  match x, y with
  | .nan, _ => false
  | _, .nan => false
  | x, y => x == y || (x.isZero && y.isZero)

end Binary64
end VirtualShell.Number
