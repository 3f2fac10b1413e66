/-!
# Flag — the vocabulary

The flags that a rule may carry and how each is spelled.  What a flag means under given options is
said elsewhere; here are only the properties that hold under all options.
-/

namespace Reachability

/-- A flag of a rule. -/
inductive Flag where
  | location
  | item
  | goal
  | early
  | achievement
  | chest
  | chestItem
  | orb
  | orbItem
  | commonEnemy
  | commonEnemyItem
  | rareEnemy
  | rareEnemyItem
  | invasionEnemy
  | invasionEnemyItem
  | minibossEnemy
  | minibossEnemyItem
  | shop
  | shopItem
  | grindy
  | fishing
  | npc
  | guide
  | slime
  | pet
  | pickaxe
  | hammer
  | minions
  | armorMinions
  | mechBoss
  | finalBoss
  | getfixedboi
  | notGetfixedboi
  | calamity
  | notCalamity
  | notCalamityGetfixedboi
  | biomeLock
  | notBiomeLock
  | weatherLock
  | grapplingHook
  | melee
  | ranged
  | magic
  | summoning
  | weaponPower
  | armorPower
  | accessoryPower
  | corruption
  | crimson
  | vanity
  | journey
  deriving DecidableEq, Repr

namespace Flag

/-- All flags, in the order of the vocabulary. -/
def all : List Flag :=
  [location, item, goal, early, achievement, chest, chestItem, orb, orbItem, commonEnemy,
   commonEnemyItem, rareEnemy, rareEnemyItem, invasionEnemy, invasionEnemyItem, minibossEnemy,
   minibossEnemyItem, shop, shopItem, grindy, fishing, npc, guide, slime, pet, pickaxe, hammer,
   minions, armorMinions, mechBoss, finalBoss, getfixedboi, notGetfixedboi, calamity, notCalamity,
   notCalamityGetfixedboi, biomeLock, notBiomeLock, weatherLock, grapplingHook, melee, ranged,
   magic, summoning, weaponPower, armorPower, accessoryPower, corruption, crimson, vanity, journey]

/-- How a flag is spelled. -/
def name : Flag → String
  | location => "Location"
  | item => "Item"
  | goal => "Goal"
  | early => "Early"
  | achievement => "Achievement"
  | chest => "Chest"
  | chestItem => "Chest Item"
  | orb => "Orb"
  | orbItem => "Orb Item"
  | commonEnemy => "Common Enemy"
  | commonEnemyItem => "Common Enemy Item"
  | rareEnemy => "Rare Enemy"
  | rareEnemyItem => "Rare Enemy Item"
  | invasionEnemy => "Invasion Enemy"
  | invasionEnemyItem => "Invasion Enemy Item"
  | minibossEnemy => "Miniboss Enemy"
  | minibossEnemyItem => "Miniboss Enemy Item"
  | shop => "Shop"
  | shopItem => "Shop Item"
  | grindy => "Grindy"
  | fishing => "Fishing"
  | npc => "Npc"
  | guide => "Guide"
  | slime => "Slime"
  | pet => "Pet"
  | pickaxe => "Pickaxe"
  | hammer => "Hammer"
  | minions => "Minions"
  | armorMinions => "Armor Minions"
  | mechBoss => "Mech Boss"
  | finalBoss => "Final Boss"
  | getfixedboi => "Getfixedboi"
  | notGetfixedboi => "Not Getfixedboi"
  | calamity => "Calamity"
  | notCalamity => "Not Calamity"
  | notCalamityGetfixedboi => "Not Calamity Getfixedboi"
  | biomeLock => "Biome Lock"
  | notBiomeLock => "Not Biome Lock"
  | weatherLock => "Weather Lock"
  | grapplingHook => "Grappling Hook"
  | melee => "Melee"
  | ranged => "Ranged"
  | magic => "Magic"
  | summoning => "Summoning"
  | weaponPower => "Weapon Power"
  | armorPower => "Armor Power"
  | accessoryPower => "Accessory Power"
  | corruption => "Corruption"
  | crimson => "Crimson"
  | vanity => "Vanity"
  | journey => "Journey"

/-- The flag of a given spelling. -/
def ofName? (name : String) : Option Flag := all.find? (·.name == name)

/-- The place of a flag in the vocabulary. -/
def index (flag : Flag) : Nat := all.idxOf flag

/-- Whether the flag turns its rule into a bank of numbered locations. -/
def isMultiLocation : Flag → Bool
  | chest | orb | commonEnemy | rareEnemy | invasionEnemy | minibossEnemy | shop => true
  | _ => false

/-- Whether the flag is listed as one that makes its rule an item under some options. -/
def producesItem : Flag → Bool
  | item | chestItem | orbItem | commonEnemyItem | rareEnemyItem | invasionEnemyItem
  | minibossEnemyItem | shopItem | biomeLock | notBiomeLock | weatherLock | grapplingHook => true
  | _ => false

/-- Whether the flag names a combat class. -/
def isClass : Flag → Bool
  | melee | ranged | magic | summoning => true
  | _ => false

theorem ofName?_name (flag : Flag) : ofName? flag.name = some flag := by cases flag <;> rfl

theorem name_of_ofName? {name : String} {flag : Flag} (h : ofName? name = some flag) :
    flag.name = name := by
  simpa using List.find?_some h

/-- No two flags share a spelling. -/
theorem name_injective {f g : Flag} (h : f.name = g.name) : f = g := by
  have hf := ofName?_name f
  rw [h, ofName?_name g] at hf
  exact (Option.some.inj hf).symm

end Flag

end Reachability
