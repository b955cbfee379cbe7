/-! Sets of characters, written as ranges of code points with both ends included. -/
namespace VirtualShell.Text

abbrev CodeRanges := List (Nat × Nat)

/-- Whether a code point lies in one of the ranges. -/
def CodeRanges.has (ranges : CodeRanges) (c : Char) : Bool :=
  ranges.any fun range => range.1 ≤ c.toNat && c.toNat ≤ range.2

end VirtualShell.Text
