import Reachability.Flag.Flags
import Reachability.Options

/-!
# Flag — what a flag contributes under given options

The same flag can make a rule a location under some options and remove it under others.
-/

namespace Reachability

/-- A contribution of a flag to its rule. -/
inductive Effect where
  /-- The rule is an obtainable item. -/
  | item
  /-- The rule is a placed location. -/
  | location
  /-- The rule is one of a numbered bank of locations. -/
  | multiLocation
  /-- The rule does not exist. -/
  | dispose
  /-- The rule is collected into a table of capabilities. -/
  | bucket
  deriving DecidableEq, Repr

namespace Flag
open Effect

/-- `effect`, if it is switched on. -/
def onlyWhen (on : Bool) (effect : Effect) : List Effect := if on then [effect] else []

/-- A location, or nothing at all. -/
def locationOrDispose (on : Bool) : List Effect := if on then [.location] else [.dispose]

/-- The effects of a flag under `options`. -/
def effects (options : Options) : Flag → List Effect
  | location => [.location]
  | item => [.item]
  | achievement => locationOrDispose options.normalAchievements
  | early => locationOrDispose options.earlyAchievements
  | grindy => locationOrDispose options.grindyAchievements
  | fishing => locationOrDispose options.fishingAchievements
  | chest => onlyWhen options.chestLoot .multiLocation
  | chestItem => onlyWhen options.chestLoot .item
  | orb => onlyWhen options.orbLoot .multiLocation
  | orbItem => onlyWhen options.orbLoot .item
  | commonEnemy => onlyWhen (0 < options.enemyCommonDrops) .multiLocation
  | commonEnemyItem => onlyWhen (0 < options.enemyCommonDrops) .item
  | rareEnemy => onlyWhen (0 < options.enemyRareDrops) .multiLocation
  | rareEnemyItem => onlyWhen (0 < options.enemyRareDrops) .item
  | invasionEnemy => onlyWhen (0 < options.enemyInvasionDrops) .multiLocation
  | invasionEnemyItem => onlyWhen (0 < options.enemyInvasionDrops) .item
  | minibossEnemy => onlyWhen (0 < options.enemyMinibossDrops) .multiLocation
  | minibossEnemyItem => onlyWhen (0 < options.enemyMinibossDrops) .item
  | shop => onlyWhen options.shopLoot .multiLocation
  | shopItem => onlyWhen options.shopLoot .item
  | npc => if options.randomizeNpcs then [.location, .item, .bucket] else [.bucket]
  | guide => if options.randomizeGuide then [.item, .bucket] else [.bucket]
  | goal | slime | pet | pickaxe | hammer | minions | armorMinions | mechBoss | finalBoss
  | vanity => [.bucket]
  | getfixedboi => onlyWhen (!options.getfixedboi) .dispose
  | notGetfixedboi => onlyWhen options.getfixedboi .dispose
  | calamity => onlyWhen (!options.calamity) .dispose
  | notCalamity => onlyWhen options.calamity .dispose
  | notCalamityGetfixedboi => onlyWhen (options.calamity || !options.getfixedboi) .dispose
  | biomeLock => onlyWhen options.biomeLocks .item
  | notBiomeLock => onlyWhen (!options.biomeLocks) .item
  | weatherLock => onlyWhen options.weatherLocks .item
  | grapplingHook => onlyWhen options.grapplingHook .item
  | melee | ranged | magic | summoning | weaponPower | armorPower | accessoryPower => []
  | corruption => onlyWhen (options.worldEvil == .crimson) .dispose
  | crimson => onlyWhen (options.worldEvil == .corruption) .dispose
  | journey => onlyWhen (!options.journeyMode) .item

/-- How many copies of a bank with this flag exist, where the options limit them. -/
def copyLimit (options : Options) : Flag → Option UInt32
  | commonEnemy => some options.enemyCommonDrops
  | rareEnemy => some options.enemyRareDrops
  | invasionEnemy => some options.enemyInvasionDrops
  | minibossEnemy => some options.enemyMinibossDrops
  | _ => none

end Flag

namespace ClassPreference

/-- The flag of the preferred class, if a class is preferred. -/
def flag? : ClassPreference → Option Flag
  | disabled => none
  | melee => some .melee
  | ranged => some .ranged
  | magic => some .magic
  | summoning => some .summoning

/-- Whether gear with these flags suits the preference.  Gear of no class suits every one. -/
def accepts (preference : ClassPreference) (flags : Flags) : Bool :=
  !flags.any Flag.isClass ||
    match preference.flag? with
    | none => true
    | some flag => flags.contains flag

end ClassPreference

end Reachability
