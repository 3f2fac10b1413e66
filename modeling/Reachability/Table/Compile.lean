import Reachability.Rule.Slug
import Reachability.Sheet.Rewards
import Reachability.Sheet.Rules
import Reachability.Table.Bank
import Reachability.Table.Descent
import Reachability.Table.Resolve

/-!
# Table — compiling sheets

The checks run in a fixed order: goals, labels, rule names, references, item names, flag values,
the goals that rules belong to, and last the descents.
-/

namespace Reachability

/-- The first of some things whose key is in `seen` or is the key of one before it. -/
def firstRepeat? {α : Type} (key : α → String) (seen : List String) : List α → Option α
  | [] => none
  | a :: rest =>
    if seen.contains (key a) then some a else firstRepeat? key (key a :: seen) rest

/-- Nothing is repeated exactly if the keys differ from each other and from those seen. -/
theorem firstRepeat?_eq_none_iff {α : Type} {key : α → String} {seen : List String} {as : List α} :
    firstRepeat? key seen as = none ↔ (as.map key).Nodup ∧ ∀ a ∈ as, key a ∉ seen := by
  induction as generalizing seen with
  | nil => simp [firstRepeat?]
  | cons a rest ih =>
    unfold firstRepeat?
    split
    · next h => simp_all
    · next h =>
      rw [ih]
      grind

/-- Goals have different names and end in order, within `count` rules. -/
def checkGoals (count : Nat) (seen : List String) (previous : Nat) :
    List GoalMarker → Except TableError Unit
  | [] => .ok ()
  | goal :: rest =>
    if seen.contains goal.name then .error (.duplicateGoal goal.name)
    else if count < goal.stop then .error (.goalOutOfRange goal.name goal.stop)
    else if goal.stop < previous then .error (.goalOrder goal.name)
    else checkGoals count (goal.name :: seen) goal.stop rest

/-- Labels have different names and list only rewards named in `declared`. -/
def checkLabels (declared : List String) (seen : List String) :
    List Label → Except TableError Unit
  | [] => .ok ()
  | label :: rest =>
    if seen.contains label.name then .error (.duplicateLabel label.name)
    else
      match label.rewards.find? (!declared.contains ·) with
      | some reward => .error (.undefinedReward label.name reward)
      | none => checkLabels declared (label.name :: seen) rest

namespace RewardSheet

/-- Every reward is listed by a label. -/
def checkLabeled (sheet : RewardSheet) : Except TableError Unit :=
  let listed := sheet.labels.flatMap Label.rewards
  match sheet.rewards.find? (!listed.contains ·.name) with
  | some reward => .error (.unlabeledReward reward.name)
  | none => .ok ()

/-- The labels and the rewards fit together. -/
def check (sheet : RewardSheet) : Except TableError Unit := do
  checkLabels (sheet.rewards.map Reward.name) [] sheet.labels
  sheet.checkLabeled

end RewardSheet

/-- The names of rules, banks included, differ. -/
def checkRuleNames (names : List String) : Except TableError Unit :=
  match firstRepeat? id [] names with
  | some name => .error (.duplicateRule name)
  | none => .ok ()

namespace Rule

/-- The entries of a rule, where `names` are the names of all entries. -/
def entries (names : List String) (rule : Rule) : Except TableError (List Entry) := do
  let members ← Condition.resolveAll names rule.name rule.conditions
  return rule.slots.map fun slot =>
    { name := slot.name, flags := slot.flags, tree := .group true rule.operator members,
      itemName := rule.itemName?, line := rule.line, copy := slot.copy }

/-- The number that a flag of the rule carries. -/
def flagNumber? (rule : Rule) (flag : Flag) : Option UInt64 :=
  ((rule.flags.get? flag).join).bind Argument.number?

/-- The flags that have to carry a number. -/
def numericFlags : List Flag :=
  [.pickaxe, .hammer, .weaponPower, .armorPower, .accessoryPower, .armorMinions, .minions]

/-- The first flag of the rule that lacks its number. -/
def bareFlag? (rule : Rule) : Option Flag :=
  numericFlags.find? fun flag => rule.flags.contains flag && (rule.flagNumber? flag).isNone

end Rule

/-- The item names that rules and rewards claim, with their lines. -/
def claimedItems (rules : List Rule) (rewards : List Reward) : List (String × UInt64) :=
  rules.filterMap (fun rule => rule.itemName?.map (·, rule.line)) ++
    rewards.map fun reward => (reward.name, reward.line)

/-- No item name is claimed twice. -/
def checkItems (rules : List Rule) (rewards : List Reward) : Except TableError Unit :=
  match firstRepeat? Prod.fst [] (claimedItems rules rewards) with
  | some (item, line) => .error (.duplicateItem item line)
  | none => .ok ()

/-- Every flag that has to carry a number does. -/
def checkFlagValues (rules : List Rule) : Except TableError Unit :=
  match rules.findSome? fun rule => rule.bareFlag?.map (rule.name, ·) with
  | some (rule, flag) => .error (.badFlagValue rule flag.name)
  | none => .ok ()

namespace Capabilities

/-- The first entries of the rules that have `flag`. -/
def flagged (placed : List (Rule × Nat)) (flag : Flag) : List Nat :=
  placed.filterMap fun (rule, index) => if rule.flags.contains flag then some index else none

/-- The first entries of the rules that have `flag` with a number, and the numbers. -/
def valued (placed : List (Rule × Nat)) (flag : Flag) : List (Nat × UInt64) :=
  placed.filterMap fun (rule, index) => (rule.flagNumber? flag).map (index, ·)

/-- The capabilities that rules give, each rule with the index of its first entry. -/
def ofRules (placed : List (Rule × Nat)) : Capabilities where
  npcs := flagged placed .npc
  pickaxes := valued placed .pickaxe
  hammers := valued placed .hammer
  weapons := valued placed .weaponPower
  armor := valued placed .armorPower
  accessories := valued placed .accessoryPower
  mechBosses := flagged placed .mechBoss
  finalBosses := flagged placed .finalBoss
  armorMinions := valued placed .armorMinions
  accessoryMinions := valued placed .minions

end Capabilities

/-- The goal of all mechanical bosses. -/
def mechBossGoal : String := "mechanical_bosses"

/-- The goal of all final bosses. -/
def finalBossGoal : String := "calamity_final_bosses"

namespace Entry

/-- The goal that the `Goal` flag of an entry names; without an argument, the one named after the
entry. -/
def goalName? (entry : Entry) : Option String :=
  (entry.flags.get? .goal).map fun argument =>
    match argument with
    | some (.text name) => name
    | some (.number n) => toString n.toNat
    | none => goalSlug entry.name

/-- The goal that collects an entry for being a boss.  A mechanical boss counts as no other. -/
def bossGoal? (entry : Entry) : Option String :=
  if entry.flags.contains .mechBoss then some mechBossGoal
  else if entry.flags.contains .finalBoss then some finalBossGoal
  else none

/-- Whether an entry is a location of the goal called `goal`. -/
def belongsTo (entry : Entry) (goal : String) : Bool :=
  entry.goalName? == some goal || entry.bossGoal? == some goal

end Entry

/-- Every goal that an entry names is one of `goals`. -/
def checkGoalNames (goals : List String) (entries : List Entry) : Except TableError Unit :=
  match entries.findSome? fun entry =>
      (entry.goalName?.filter (!goals.contains ·)).map (entry.name, ·) with
  | some (rule, goal) => .error (.undefinedGoal rule goal)
  | none => .ok ()

/-- No descent comes back to where it started. -/
def checkDescents (entries : List Entry) (capabilities : Capabilities) : Except TableError Unit :=
  match cyclicNames? entries capabilities with
  | some path => .error (.cyclicDependency path)
  | none => .ok ()

/-- The goal that a marker ends, with its locations among `entries`. -/
def GoalMarker.goal (rules : List Rule) (entries : List Entry) (marker : GoalMarker) : Goal where
  name := marker.name
  stop := entriesBefore rules marker.stop
  locations := .ofList ((entries.filter (·.belongsTo marker.name)).map Entry.name)

/-- The names of all entries of some rules. -/
def entryNames (rules : List Rule) : List String :=
  rules.flatMap fun rule => rule.slots.map Slot.name

namespace Table

/-- Compiles a rule sheet and a reward sheet. -/
def compile (sheet : RuleSheet) (rewards : RewardSheet) : Except TableError Table := do
  checkGoals sheet.rules.length [] 0 sheet.goals
  rewards.check
  let names := entryNames sheet.rules
  checkRuleNames names
  let blocks ← sheet.rules.mapM (Rule.entries names)
  let entries := blocks.flatten
  checkItems sheet.rules rewards.rewards
  checkFlagValues sheet.rules
  let capabilities := Capabilities.ofRules (placeRules 0 sheet.rules)
  checkGoalNames (sheet.goals.map GoalMarker.name) entries
  checkDescents entries capabilities
  return { entries, capabilities,
           goals := sheet.goals.map (GoalMarker.goal sheet.rules entries),
           labels := rewards.labels, rewards := rewards.rewards }

/-- Reads a condition against a table. -/
def resolve (table : Table) (condition : Statement) : Except TableError Tree :=
  Condition.resolve table.names "query" condition

end Table

end Reachability
