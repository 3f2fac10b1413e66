/-!
# Holdings — what is held

Whether at least so many copies of an item are held is all that an evaluation asks.
-/

namespace Reachability

/-- For each item name and count, whether at least so many are held. -/
abbrev Holdings := String → UInt64 → Bool

/-- One copy of each of `names` is held. -/
def Holdings.ofNames (names : List String) : Holdings := fun name count =>
  count ≤ 1 && (count == 0 || names.contains name)

end Reachability
