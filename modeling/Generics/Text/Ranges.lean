/-
# Sets of characters given by ranges

A property of characters is listed as ascending, disjoint ranges of code points.
-/

namespace Generics.Text

/-- Whether a code point lies in one of the ascending ranges. -/
def inRanges (n : Nat) : List (Nat × Nat) → Bool
  | [] => false
  | (low, high) :: rest => low ≤ n && (n ≤ high || inRanges n rest)

end Generics.Text
