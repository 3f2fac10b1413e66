import Reachability.Holdings
import Reachability.Session.Error
import Reachability.Session.Role

/-!
# Session — a table under options

A session fixes the options and the goal.  A goal with a location that needs Calamity switches
Calamity on, and no location of the goal is disposed.
-/

namespace Reachability

/-- A table under options, with the goal to play for. -/
structure Session where
  table : Table
  /-- The options in effect. -/
  options : Options
  /-- The goal; a table without goals has none. -/
  goal : Option Goal

namespace Table

/-- The goal that options select: the one they name, or else the first. -/
def selectGoal (table : Table) (options : Options) : Except QueryError (Option Goal) :=
  match options.goal with
  | none => .ok table.goals.head?
  | some name =>
    match table.goal? name with
    | some goal => .ok (some goal)
    | none => .error (.unknownGoal name)

/-- Whether a location of the goal carries the `Calamity` flag. -/
def needsCalamity (table : Table) (goal : Goal) : Bool :=
  goal.locations.names.any fun location =>
    (table.entry? location).any (·.flags.contains .calamity)

/-- Opens a session. -/
def session (table : Table) (options : Options) : Except QueryError Session := do
  let goal ← table.selectGoal options
  let calamity := options.calamity || goal.any table.needsCalamity
  return { table, goal, options := { options with calamity } }

end Table

namespace Session

/-- The role of an entry. -/
def role (session : Session) (entry : Entry) : Role :=
  let role := entry.role session.options
  if session.goal.any (·.locations.contains entry.name) then { role with disposed := false }
  else role

/-- The name under which an entry is held: its item name if it is an item, and else its own. -/
def heldName (session : Session) (entry : Entry) : String :=
  if (session.role entry).item then entry.defaultItemName else entry.name

/-- How many entries are in scope; they are the first ones of the table. -/
def scope (session : Session) : Nat :=
  match session.goal with
  | some goal => goal.stop
  | none => session.table.entries.length

/-- The entry of a given index. -/
def entryAt (session : Session) (index : Nat) : Except QueryError Entry :=
  match session.table.entries[index]? with
  | some entry => .ok entry
  | none => .error (.missingEntry index)

/-- The entry of a given name. -/
def entryNamed (session : Session) (name : String) : Except QueryError Entry :=
  match session.table.entry? name with
  | some entry => .ok entry
  | none => .error (.unknownRule name)

/-- Whether an entry of gear has at least the power `n` and suits the preferred class. -/
def isAdequate (session : Session) (n : UInt64) (gear : Nat × UInt64) : Except QueryError Bool :=
  if gear.2 < n then .ok false
  else do
    let entry ← session.entryAt gear.1
    return session.options.classPreference.accepts entry.flags

/-- The item names that complete the goal. -/
def goalItems (session : Session) : NameSet :=
  match session.goal with
  | none => ∅
  | some goal =>
    .ofList (goal.locations.names.filterMap fun location =>
      (session.table.entry? location).map Entry.defaultItemName)

/-- Whether every item of the goal is held. -/
def isComplete (session : Session) (has : Holdings) : Bool :=
  session.goalItems.names.all (has · 1)

/-- The rewards of a label, in order, without those of Calamity unless it is switched on. -/
def rewards (session : Session) (label : String) : Except QueryError (List String) :=
  match session.table.label? label with
  | none => .error (.unknownLabel label)
  | some found =>
    .ok (found.rewards.filter fun name =>
      session.options.calamity ||
        (session.table.reward? name).all (·.flag != Flag.calamity.name))

end Session

end Reachability
