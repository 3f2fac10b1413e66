import Reachability.Builtin
import Reachability.Condition.Basic
import Reachability.Flag.Flags
import Reachability.NameSet
import Reachability.Reward

/-!
# Table — compiled rules

In a table a condition refers to rules by their index.  The table also keeps its goals, the
rewards, and the rules that the functions of conditions look at.
-/

namespace Reachability

/-- A condition of a table. -/
abbrev Tree := Condition Nat Builtin

/-- A rule of a table. -/
structure Entry where
  name : String
  flags : Flags
  tree : Tree
  /-- The name of the item it produces, if it can produce one. -/
  itemName : Option String
  line : UInt64
  /-- The number within a bank, from 1. -/
  copy : Option UInt32

/-- The name under which an entry is handed out as an item. -/
def Entry.defaultItemName (entry : Entry) : String := entry.itemName.getD entry.name

/-- A goal: the entries below `stop` are in its scope, and `locations` complete it. -/
structure Goal where
  name : String
  stop : Nat
  locations : NameSet
  deriving DecidableEq

/-- The entries that the functions of conditions look at, some with a power or a bonus. -/
structure Capabilities where
  npcs : List Nat := []
  pickaxes : List (Nat × UInt64) := []
  hammers : List (Nat × UInt64) := []
  weapons : List (Nat × UInt64) := []
  armor : List (Nat × UInt64) := []
  accessories : List (Nat × UInt64) := []
  mechBosses : List Nat := []
  finalBosses : List Nat := []
  armorMinions : List (Nat × UInt64) := []
  accessoryMinions : List (Nat × UInt64) := []
  deriving DecidableEq, Repr

namespace Capabilities

/-- The tables of gear, one group of each of which adequate gear needs. -/
def gearTables (capabilities : Capabilities) : List (List (Nat × UInt64)) :=
  [capabilities.weapons, capabilities.armor, capabilities.accessories]

/-- The entries of all tables of gear. -/
def gear (capabilities : Capabilities) : List Nat := capabilities.gearTables.flatten.map Prod.fst

end Capabilities

/-- A compiled rule sheet together with a reward sheet. -/
structure Table where
  entries : List Entry
  goals : List Goal
  labels : List Label
  rewards : List Reward
  capabilities : Capabilities

namespace Table

/-- The index of the rule of a given name. -/
def indexOf? (table : Table) (name : String) : Option Nat :=
  table.entries.findIdx? (·.name == name)

/-- The rule of a given name. -/
def entry? (table : Table) (name : String) : Option Entry :=
  table.entries.find? (·.name == name)

/-- The rule of a given name is the one at its index. -/
theorem entry?_eq_getElem? (table : Table) (name : String) :
    table.entry? name = (table.indexOf? name).bind (table.entries[·]?) := by
  unfold entry? indexOf?
  induction table.entries with
  | nil => rfl
  | cons entry rest ih =>
    rw [List.find?_cons, List.findIdx?_cons]
    split
    · next h => simp [h]
    · next h => cases hi : rest.findIdx? (·.name == name) <;> simp_all

/-- The goal of a given name. -/
def goal? (table : Table) (name : String) : Option Goal :=
  table.goals.find? (·.name == name)

/-- The label of a given name. -/
def label? (table : Table) (name : String) : Option Label :=
  table.labels.find? (·.name == name)

/-- The reward of a given name, the last one if several have it. -/
def reward? (table : Table) (name : String) : Option Reward :=
  table.rewards.reverse.find? (·.name == name)

/-- The names that conditions give the rules of a table. -/
def names (table : Table) : List String := table.entries.map Entry.name

/-- The names of the rules that the condition of a rule refers to, in order of appearance. -/
def dependencies? (table : Table) (name : String) : Option (List String) :=
  (table.entry? name).map fun entry =>
    entry.tree.references.filterMap fun index => (table.entries[index]?).map Entry.name

/-- What a table holds, in a line. -/
def summary (table : Table) : String :=
  s!"RuleTable({table.entries.length} rules, {table.goals.length} goals, " ++
    s!"{table.labels.length} labels, {table.rewards.length} rewards)"

end Table

end Reachability
