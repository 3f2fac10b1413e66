import Reachability.Capped
import Reachability.Session.Meaning
import Reachability.Session.Basic

/-!
# Session — what can be reached

A rule is reachable with what is held if its tree holds.  Items ask what is held under the name
of the rule they refer to, locations enter the tree of that rule, and functions look at the
capabilities of the table or at the options.
-/

namespace Reachability

/-- How many minions follow a player whose armor and accessories have these bonuses: one, more
with the best armor, and the sum of the accessories. -/
def minionCapacity (armor accessories : List UInt64) : UInt64 :=
  Capped.add (armor.foldl (fun best bonus => max best (Capped.add bonus 1)) 1)
    (Capped.sum accessories)

/-- The number a function is called with. -/
def threshold (function : Builtin) (argument : Option Argument) : Except QueryError UInt64 :=
  match argument.bind Argument.number? with
  | some n => .ok n
  | none => .error (.badArgument function)

namespace Session
variable (session : Session) (has : Holdings)

/-- Whether at least `quantity` copies of what the entry of an index hands out are held. -/
def holds (index : Nat) (quantity : UInt64) : Except QueryError Bool := do
  let entry ← session.entryAt index
  return has (session.heldName entry) quantity

/-- How many of some entries are held. -/
def countHeld : List Nat → Except QueryError Nat
  | [] => .ok 0
  | index :: rest => do
    let held ← session.holds has index 1
    let count ← countHeld rest
    return if held then count + 1 else count

/-- The bonuses of those of some entries that are held. -/
def heldBonuses : List (Nat × UInt64) → Except QueryError (List UInt64)
  | [] => .ok []
  | (index, bonus) :: rest => do
    let held ← session.holds has index 1
    let bonuses ← heldBonuses rest
    return if held then bonus :: bonuses else bonuses

/-- Whether one of some tools of at least the power `n` is held. -/
def holdsPower (n : UInt64) (tools : List (Nat × UInt64)) : Except QueryError Bool :=
  tools.anyM fun (index, power) => if n ≤ power then session.holds has index 1 else .ok false

/-- Whether each table of gear has an adequate group whose tree holds, as `enter` tells. -/
def gearAdequate (enter : Nat → Except QueryError Bool) (n : UInt64) : Except QueryError Bool :=
  session.table.capabilities.gearTables.allM fun gear =>
    gear.anyM fun group => do
      if ← session.isAdequate n group then enter group.1 else return false

/-- What a function answers, where `enter` tells whether the tree of an entry holds. -/
def call (enter : Nat → Except QueryError Bool) (function : Builtin)
    (argument : Option Argument) : Except QueryError Bool :=
  let capabilities := session.table.capabilities
  match function with
  | .npc => do
    let n ← threshold function argument
    return n.toNat ≤ (← session.countHeld has capabilities.npcs)
  | .mechBoss => do
    let n ← threshold function argument
    return n.toNat ≤ (← session.countHeld has capabilities.mechBosses)
  | .pickaxe => do session.holdsPower has (← threshold function argument) capabilities.pickaxes
  | .hammer => do session.holdsPower has (← threshold function argument) capabilities.hammers
  | .minions => do
    let n ← threshold function argument
    let armor ← session.heldBonuses has capabilities.armorMinions
    let accessories ← session.heldBonuses has capabilities.accessoryMinions
    return n ≤ minionCapacity armor accessories
  | .gearPower => do
    let n ← threshold function argument
    if session.options.requireOptimalGear then session.gearAdequate enter n else return true
  | .calamity => .ok session.options.calamity
  | .biomeLocks => .ok session.options.biomeLocks
  | .extraChecks => .ok session.options.extraChecks
  | .grindy => .ok session.options.grindyAchievements
  | .getfixedboi => .ok session.options.getfixedboi
  | .requireBootsJumpHook => .ok session.options.requireBootsJumpHook
  | .requireWings => .ok session.options.requireWings

/-- What items, locations and functions say, where `enter` tells whether the tree of an entry
holds. -/
def meaning (enter : Nat → Except QueryError Bool) : Meaning where
  item := session.holds has
  location := enter
  call := session.call has enter

/-- Whether the tree of an entry holds, going at most `depth` trees deep. -/
def enterWithin : Nat → Nat → Except QueryError Bool
  | 0, _ => .error .bottomlessDescent
  | depth + 1, index => do
    let entry ← session.entryAt index
    entry.tree.evaluate (session.meaning has (enterWithin depth))

/-- Whether the tree of an entry holds.  No tree enters itself, so the number of entries bounds
the depth. -/
def enter (index : Nat) : Except QueryError Bool :=
  session.enterWithin has session.table.entries.length index

/-- Whether a tree holds. -/
def evaluate (tree : Tree) : Except QueryError Bool :=
  tree.evaluate (session.meaning has (session.enter has))

/-- Whether the rule of a given name can be reached. -/
def canReach (name : String) : Except QueryError Bool := do
  let entry ← session.entryNamed name
  session.evaluate has entry.tree

end Session

end Reachability
