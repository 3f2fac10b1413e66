/-!
# Builtin — the functions a condition may call

A fixed registry.  Some functions ask for a number to compare with, the others echo an option.
-/

namespace Reachability

/-- A function that a condition may call with `@`. -/
inductive Builtin where
  | npc
  | calamity
  | biomeLocks
  | extraChecks
  | grindy
  | pickaxe
  | hammer
  | mechBoss
  | minions
  | getfixedboi
  | gearPower
  | requireBootsJumpHook
  | requireWings
  deriving DecidableEq, Repr

namespace Builtin

/-- All functions, in the order of the registry. -/
def all : List Builtin :=
  [npc, calamity, biomeLocks, extraChecks, grindy, pickaxe, hammer, mechBoss, minions, getfixedboi,
   gearPower, requireBootsJumpHook, requireWings]

/-- How a function is spelled, without its `@`. -/
def name : Builtin → String
  | npc => "npc"
  | calamity => "calamity"
  | biomeLocks => "biome_locks"
  | extraChecks => "extra_checks"
  | grindy => "grindy"
  | pickaxe => "pickaxe"
  | hammer => "hammer"
  | mechBoss => "mech_boss"
  | minions => "minions"
  | getfixedboi => "getfixedboi"
  | gearPower => "gear_power"
  | requireBootsJumpHook => "require_boots_jump_hook"
  | requireWings => "require_wings"

/-- The function of a given spelling. -/
def ofName? (name : String) : Option Builtin := all.find? (·.name == name)

/-- Whether the function compares with a number, which its call must then carry. -/
def takesNumber : Builtin → Bool
  | npc | pickaxe | hammer | mechBoss | minions | gearPower => true
  | _ => false

/-- The function as messages show it. -/
def shown (function : Builtin) : String := "@" ++ function.name

theorem ofName?_name (function : Builtin) : ofName? function.name = some function := by
  cases function <;> rfl

theorem name_of_ofName? {name : String} {function : Builtin} (h : ofName? name = some function) :
    function.name = name := by
  simpa using List.find?_some h

theorem name_injective {f g : Builtin} (h : f.name = g.name) : f = g := by
  have hf := ofName?_name f
  rw [h, ofName?_name] at hf
  exact (Option.some.inj hf).symm

end Builtin

end Reachability
