/-! Digits of a base, the letters standing for ten and more in either case. -/
namespace VirtualShell.Text

def digitValue? (base : Nat) (c : Char) : Option Nat :=
  let value := if c.isDigit then c.toNat - 48 else if c.isLower then c.toNat - 87
    else if c.isUpper then c.toNat - 55 else base
  if value < base then some value else none

/-- The number that digits stand for; there is at least one. -/
def number? (base : Nat) (digits : List Char) : Option Nat :=
  if digits.isEmpty then none
  else digits.foldlM (fun n d => (digitValue? base d).map fun v => base * n + v) 0

end VirtualShell.Text
