/-!
# Options — what a player has switched on

The choices that decide which flags make a rule a location or an item, and what the functions of
conditions answer.
-/

namespace Reachability

/-- The combat class whose gear the player prefers. -/
inductive ClassPreference where
  | disabled
  | melee
  | ranged
  | magic
  | summoning
  deriving DecidableEq, Repr

/-- The evil biome the world has. -/
inductive WorldEvil where
  | corruption
  | crimson
  | either
  deriving DecidableEq, Repr

/-- The choices for one session. -/
structure Options where
  /-- The name of the goal to play for; without one, the first goal of the table. -/
  goal : Option String := none
  calamity : Bool := false
  getfixedboi : Bool := false
  biomeLocks : Bool := true
  weatherLocks : Bool := false
  chestLoot : Bool := true
  orbLoot : Bool := true
  shopLoot : Bool := false
  enemyCommonDrops : UInt32 := 0
  enemyRareDrops : UInt32 := 0
  enemyInvasionDrops : UInt32 := 0
  enemyMinibossDrops : UInt32 := 0
  grapplingHook : Bool := false
  randomizeNpcs : Bool := false
  randomizeGuide : Bool := false
  earlyAchievements : Bool := true
  normalAchievements : Bool := true
  grindyAchievements : Bool := false
  fishingAchievements : Bool := false
  classPreference : ClassPreference := .disabled
  worldEvil : WorldEvil := .either
  journeyMode : Bool := false
  requireBootsJumpHook : Bool := true
  requireWings : Bool := true
  requireOptimalGear : Bool := true
  deriving DecidableEq, Repr

namespace Options

/-- Whether any kind of achievement is a location. -/
def anyAchievements (options : Options) : Bool :=
  options.earlyAchievements || options.normalAchievements || options.grindyAchievements ||
    options.fishingAchievements

/-- Whether there are checks beyond the bosses: achievements or chests. -/
def extraChecks (options : Options) : Bool := options.anyAchievements || options.chestLoot

end Options

end Reachability
