import Reachability.Session.Meaning
import Reachability.Session.Basic

/-!
# Session — progression

An item is progression if something in the scope of the goal may depend on it.  Marking starts
from the locations in scope and from a few kinds of rules that matter by themselves, and walks
their trees.
-/

namespace Reachability

/-- What marking has found: the progression names, and the entries whose trees were walked. -/
structure Marks where
  names : NameSet
  walked : List Nat := []

/-- The marks with one more name. -/
def Marks.addName (marks : Marks) (name : String) : Marks :=
  { marks with names := marks.names.insert name }

namespace Flags

/-- The flags that make an entry a root of marking. -/
def rootFlags : List Flag := [.goal, .pickaxe, .hammer, .mechBoss, .finalBoss]

/-- The flags that do so where achievements are locations. -/
def achievementRootFlags : List Flag := [.npc, .minions, .armorMinions]

/-- Whether an entry with these flags is a root of marking. -/
def isRoot (options : Options) (flags : Flags) : Bool :=
  rootFlags.any flags.contains ||
    (options.anyAchievements && achievementRootFlags.any flags.contains)

end Flags

namespace Session
variable (session : Session)

/-- The first adequate group of some gear. -/
def firstAdequate? (n : UInt64) (gear : List (Nat × UInt64)) :
    Except QueryError (Option (Nat × UInt64)) :=
  gear.findM? (session.isAdequate n)

/-- Walks the first adequate group of each table of gear. -/
def markGear (walk : Nat → Marks → Except QueryError Marks) (n : UInt64) (marks : Marks) :
    Except QueryError Marks :=
  session.table.capabilities.gearTables.foldlM
    (fun marks gear => do
      match ← session.firstAdequate? n gear with
      | some group => walk group.1 marks
      | none => return marks)
    marks

section
variable (walk : Nat → Marks → Except QueryError Marks)

mutual
/-- Marks what a tree depends on, where `walk` does so for the tree of an entry. -/
def markTree : Tree → Marks → Except QueryError Marks
  | .item _ target _, marks => do
    let entry ← session.entryAt target
    let name := session.heldName entry
    if !marks.names.contains name && (session.role entry).isEvent then
      walk target (marks.addName name)
    else return marks.addName name
  | .location _ target, marks => do
    let entry ← session.entryAt target
    walk target (marks.addName (session.heldName entry))
  | .call _ function argument, marks =>
    if function = .gearPower then
      match argument.bind Argument.number? with
      | some n => session.markGear walk n marks
      | none => .error (.badArgument function)
    else .ok marks
  | .group _ _ members, marks => markTrees members marks

/-- Marks what some trees depend on. -/
def markTrees : List Tree → Marks → Except QueryError Marks
  | [], marks => .ok marks
  | c :: rest, marks => do
    let marks ← markTree c marks
    markTrees rest marks
end

end

/-- Marks what the tree of an entry depends on, unless it was walked before, going at most `depth`
trees deep. -/
def walkWithin : Nat → Nat → Marks → Except QueryError Marks
  | 0, index, marks =>
    if marks.walked.contains index then .ok marks else .error .bottomlessDescent
  | depth + 1, index, marks =>
    if marks.walked.contains index then .ok marks
    else do
      let entry ← session.entryAt index
      session.markTree (walkWithin depth) entry.tree { marks with walked := index :: marks.walked }

/-- Marks what the tree of an entry depends on.  Each tree is walked once, so the number of
entries bounds the depth. -/
def walk : Nat → Marks → Except QueryError Marks :=
  session.walkWithin session.table.entries.length

/-- Marks the entry of an index that is in scope. -/
def markEntry (marks : Marks) (index : Nat) : Except QueryError Marks := do
  let entry ← session.entryAt index
  let isRoot := entry.flags.isRoot session.options
  let marks := if isRoot then marks.addName entry.defaultItemName else marks
  if isRoot || (session.role entry).location then session.walk index marks else return marks

/-- Adds the progression names to a set. -/
def markInto (names : NameSet) : Except QueryError NameSet := do
  let marks ← (List.range session.scope).foldlM session.markEntry { names }
  return marks.names

/-- The progression names. -/
def progression : Except QueryError NameSet := session.markInto ∅

end Session

end Reachability
