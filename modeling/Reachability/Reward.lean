/-!
# Reward — filler items

Rewards are items without a rule of their own, listed under labels that say in which order they
fill places.
-/

namespace Reachability

/-- What every reward's item name starts with. -/
def rewardTitle : String := "Reward: "

/-- A filler item. -/
structure Reward where
  name : String
  /-- The one flag of the reward, a free text. -/
  flag : String
  line : UInt64 := 0
  deriving DecidableEq, Repr

/-- A label and the names of its rewards, in order. -/
structure Label where
  name : String
  rewards : List String := []
  deriving DecidableEq, Repr

end Reachability
