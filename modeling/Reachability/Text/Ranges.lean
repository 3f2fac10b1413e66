/-!
# Text — ranges of code points

A property of characters is kept as the list of its ranges, first and last code point included.
-/

namespace Reachability.Text

/-- Whether the code point of `c` lies in one of `ranges`. -/
def inRanges (ranges : List (Nat × Nat)) (c : Char) : Bool :=
  ranges.any fun range => range.1 ≤ c.toNat && c.toNat ≤ range.2

end Reachability.Text
