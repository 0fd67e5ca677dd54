/-!
# Sets of characters given by code point ranges
-/
namespace Reckoner.Text

/-- Inclusive ranges of code points, in ascending order and disjoint. -/
abbrev Ranges := List (Nat × Nat)

def Ranges.holds (ranges : Ranges) (c : Char) : Bool :=
  ranges.any fun range => decide (range.1 ≤ c.toNat) && decide (c.toNat ≤ range.2)

end Reckoner.Text
