import Reachability.Cache.Error
import Reachability.Cache.Payload
import Reachability.Table.Compile

/-!
# Cache — accepting a stored table

Nothing that a payload says is trusted: every property that compiling gives a table and that a
session relies on is checked again.
-/

namespace Reachability.Cache

/-- Goals have different names and end in order, within `count` rules. -/
def checkGoals (count : Nat) (seen : List String) (previous : Nat) :
    List StoredGoal → Except Flaw Unit
  | [] => .ok ()
  | goal :: rest =>
    if seen.contains goal.name then .error (.duplicateGoal goal.name)
    else if count < goal.stop || goal.stop < previous then
      .error (.goalEnd goal.name goal.stop count previous)
    else checkGoals count (goal.name :: seen) goal.stop rest

/-- Labels have different names and list only rewards named in `declared`. -/
def checkLabels (declared : List String) (seen : List String) : List Label → Except Flaw Unit
  | [] => .ok ()
  | label :: rest =>
    if seen.contains label.name then .error (.duplicateLabel label.name)
    else
      match label.rewards.find? (!declared.contains ·) with
      | some reward => .error (.unknownReward label.name reward)
      | none => checkLabels declared (label.name :: seen) rest

/-- The flags that stored ones spell. -/
def acceptFlags (rule : String) (flags : Flags) :
    List (String × Option Argument) → Except Flaw Flags
  | [] => .ok flags
  | (name, argument) :: rest =>
    match Flag.ofName? name with
    | none => .error (.unknownFlag rule name)
    | some flag =>
      if flags.contains flag then .error (.repeatedFlag rule name)
      else acceptFlags rule (flags.insert flag argument) rest

/-- The function that a stored call spells, if the call suits it. -/
def acceptCall (name : String) (argument : Option Argument) : Except Flaw Builtin :=
  match Builtin.ofName? name with
  | none => .error (.unknownFunction name)
  | some function =>
    if Condition.suits function argument then .ok function else .error (.missingNumber name)

mutual
/-- The tree that a stored one spells. -/
def acceptTree : StoredTree → Except Flaw Tree
  | .item sign target quantity => .ok (.item sign target quantity)
  | .location sign target => .ok (.location sign target)
  | .call sign name argument => do
    let function ← acceptCall name argument
    return .call sign function argument
  | .group sign operator members =>
    if operator.isNone && 1 < members.length then .error (.joinlessGroup members.length)
    else do
      let members ← acceptTrees members
      return .group sign operator members

/-- The trees that stored ones spell. -/
def acceptTrees : List StoredTree → Except Flaw (List Tree)
  | [] => .ok []
  | c :: rest => do
    let tree ← acceptTree c
    let trees ← acceptTrees rest
    return tree :: trees
end

/-- The entry that a stored rule spells. -/
def StoredRule.accept (rule : StoredRule) : Except Flaw Entry := do
  let flags ← acceptFlags rule.name ∅ rule.flags
  let tree ← acceptTree rule.tree
  return { name := rule.name, flags, tree, itemName := rule.itemName, line := rule.line,
           copy := rule.copy }

/-- The goal that a stored one is. -/
def StoredGoal.accept (goal : StoredGoal) : Goal := ⟨goal.name, goal.stop, .ofList goal.locations⟩

/-- The indices in some capabilities, in the order in which they are checked. -/
def capabilityIndices (c : Capabilities) : List Nat :=
  c.npcs ++ c.mechBosses ++ c.finalBosses ++
    (c.pickaxes ++ c.hammers ++ c.weapons ++ c.armor ++ c.accessories ++ c.armorMinions ++
      c.accessoryMinions).map Prod.fst

/-- Two counts agree. -/
def checkCount (flaw : Nat → Nat → Flaw) (stated actual : Nat) : Except Flaw Unit :=
  if stated = actual then .ok () else .error (flaw stated actual)

/-- All indices are below `count`. -/
def checkBounds (flaw : Nat → Nat → Flaw) (count : Nat) (indices : List Nat) :
    Except Flaw Unit :=
  match indices.find? (count ≤ ·) with
  | some index => .error (flaw index count)
  | none => .ok ()

/-- The locations of goals are rules. -/
def checkLocations (names : List String) (goals : List Goal) : Except Flaw Unit :=
  match goals.findSome? fun goal =>
      (goal.locations.names.find? (!names.contains ·)).map (goal.name, ·) with
  | some (goal, location) => .error (.unknownLocation goal location)
  | none => .ok ()

/-- The names of rules differ. -/
def checkRuleNames (names : List String) : Except Flaw Unit :=
  if (firstRepeat? id [] names).isSome then .error .repeatedRuleNames else .ok ()

/-- No descent comes back to where it started. -/
def checkDescents (entries : List Entry) (capabilities : Capabilities) : Except Flaw Unit :=
  match Reachability.checkDescents entries capabilities with
  | .error error => .error (.cyclic error.message)
  | .ok () => .ok ()

namespace Payload

/-- The checks that need only the payload as it is stored. -/
def check (payload : Payload) : Except Flaw Unit := do
  let count := payload.rules.length
  checkCount .ruleCount payload.metadata.rules count
  checkCount .goalCount payload.metadata.goals payload.goals.length
  checkCount .rewardCount payload.metadata.rewards payload.rewards.length
  checkBounds .strayReference count (payload.rules.flatMap (·.tree.references))
  checkGoals count [] 0 payload.goals
  checkLabels (payload.rewards.map Reward.name) [] payload.labels
  checkBounds .strayCapability count (capabilityIndices payload.capabilities)

/-- The table that a payload stores. -/
def accept (payload : Payload) : Except Flaw Table := do
  payload.check
  let entries ← payload.rules.mapM StoredRule.accept
  let names := entries.map Entry.name
  checkRuleNames names
  let goals := payload.goals.map StoredGoal.accept
  checkLocations names goals
  checkDescents entries payload.capabilities
  return { entries, goals, labels := payload.labels, rewards := payload.rewards,
           capabilities := payload.capabilities }

end Payload

end Reachability.Cache
