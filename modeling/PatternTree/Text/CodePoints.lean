/-!
# Sets of characters by code point

A property of characters is kept as the ranges of code points that have it, each
with its first and its last one, in ascending order and apart from each other.
-/

namespace PatternTree.Text

/-- Ranges of code points, first and last. -/
abbrev CodePoints := List (Nat × Nat)

namespace CodePoints

/-- Whether a character's code point is in one of the ranges. -/
def contains (ranges : CodePoints) (c : Char) : Bool :=
  ranges.any fun (first, last) => first ≤ c.toNat && c.toNat ≤ last

end CodePoints

end PatternTree.Text
