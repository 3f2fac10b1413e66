import Reachability.Cache.Wire
import Reachability.Hash.Blake3
import Reachability.Table.Basic

/-!
# Cache — what is stored of a table

A payload spells flags and functions by name, so that it does not depend on their order in the
library, and repeats how many rules, goals and rewards there are.
-/

namespace Reachability.Cache
open Blake3 (Digest)

/-- A tree whose functions are spelled out. -/
abbrev StoredTree := Condition Nat String

/-- A rule as it is stored. -/
structure StoredRule where
  name : String
  flags : List (String × Option Argument)
  tree : StoredTree
  itemName : Option String
  line : UInt64
  copy : Option UInt32

/-- A goal as it is stored. -/
structure StoredGoal where
  name : String
  stop : Nat
  locations : List String
  deriving DecidableEq, Repr

/-- What the payload says about itself. -/
structure Metadata where
  rules : Nat
  goals : Nat
  rewards : Nat
  /-- The digest of the source text the table was made from, if it was recorded. -/
  source : Option Digest

/-- A table as it is stored. -/
structure Payload where
  metadata : Metadata
  rules : List StoredRule
  goals : List StoredGoal
  labels : List Label
  rewards : List Reward
  capabilities : Capabilities

namespace Wire

/-- One of the two operators. -/
def operator : Wire Operator where
  write
    | .and => tag.write 0
    | .or => tag.write 1
  read bytes := do
    match ← tag.read bytes with
    | (0, rest) => return (.and, rest)
    | (1, rest) => return (.or, rest)
    | _ => none

/-- The argument of a function. -/
def argument : Wire Argument where
  write
    | .text t => tag.write 0 ++ text.write t
    | .number n => tag.write 1 ++ word.write n
  read bytes := do
    match ← tag.read bytes with
    | (0, rest) => (text.read rest).map fun (t, rest) => (.text t, rest)
    | (1, rest) => (word.read rest).map fun (n, rest) => (.number n, rest)
    | _ => none

/-- The argument of a flag, where a missing one is an alternative of its own. -/
def flagArgument : Wire (Option Argument) where
  write
    | none => tag.write 0
    | some (.text t) => tag.write 1 ++ text.write t
    | some (.number n) => tag.write 2 ++ word.write n
  read bytes := do
    match ← tag.read bytes with
    | (0, rest) => return (none, rest)
    | (1, rest) => (text.read rest).map fun (t, rest) => (some (.text t), rest)
    | (2, rest) => (word.read rest).map fun (n, rest) => (some (.number n), rest)
    | _ => none

mutual
/-- Writes a tree: its sign, which kind of condition it is, and its parts. -/
def writeTree : StoredTree → List UInt8
  | .item sign target quantity =>
    truth.write sign ++ tag.write 0 ++ count.write target ++ word.write quantity
  | .location sign target => truth.write sign ++ tag.write 1 ++ count.write target
  | .call sign function a =>
    truth.write sign ++ tag.write 2 ++ text.write function ++ (option argument).write a
  | .group sign o members =>
    truth.write sign ++ tag.write 3 ++ (option operator).write o ++
      count.write members.length ++ writeTrees members

/-- Writes trees one after another. -/
def writeTrees : List StoredTree → List UInt8
  | [] => []
  | c :: rest => writeTree c ++ writeTrees rest
end

/-- Reads a tree with fewer levels of groups than `budget` has bytes. -/
def readTree : List UInt8 → List UInt8 → Option (StoredTree × List UInt8)
  | [], _ => none
  | _ :: budget, bytes => do
    let (sign, bytes) ← truth.read bytes
    match ← tag.read bytes with
    | (0, bytes) =>
      let (target, bytes) ← count.read bytes
      let (quantity, bytes) ← word.read bytes
      return (.item sign target quantity, bytes)
    | (1, bytes) =>
      let (target, bytes) ← count.read bytes
      return (.location sign target, bytes)
    | (2, bytes) =>
      let (function, bytes) ← text.read bytes
      let (a, bytes) ← (option argument).read bytes
      return (.call sign function a, bytes)
    | (3, bytes) =>
      let (o, bytes) ← (option operator).read bytes
      let (n, bytes) ← count.read bytes
      let (members, bytes) ← readMany (readTree budget) n bytes
      return (.group sign o members, bytes)
    | _ => none

/-- A tree.  Each group takes up bytes of its own, so the bytes are budget enough. -/
def tree : Wire StoredTree where
  write := writeTree
  read bytes := readTree bytes bytes

/-- A rule. -/
def rule : Wire StoredRule :=
  (text.pair <| (list (text.pair flagArgument)).pair <| tree.pair <|
    (option text).pair <| word.pair (option shortWord)).via
    (fun r => (r.name, r.flags, r.tree, r.itemName, r.line, r.copy))
    (fun (name, flags, tree, itemName, line, copy) => ⟨name, flags, tree, itemName, line, copy⟩)

/-- A goal. -/
def goal : Wire StoredGoal :=
  (text.pair <| count.pair (list text)).via (fun g => (g.name, g.stop, g.locations))
    (fun (name, stop, locations) => ⟨name, stop, locations⟩)

/-- A label. -/
def label : Wire Label :=
  (text.pair (list text)).via (fun l => (l.name, l.rewards)) (fun (name, rewards) => ⟨name, rewards⟩)

/-- A reward. -/
def reward : Wire Reward :=
  (text.pair <| text.pair word).via (fun r => (r.name, r.flag, r.line))
    (fun (name, flag, line) => ⟨name, flag, line⟩)

/-- The metadata. -/
def metadata : Wire Metadata :=
  (count.pair <| count.pair <| count.pair (option (raw 32))).via
    (fun m => (m.rules, m.goals, m.rewards, m.source))
    (fun (rules, goals, rewards, source) => ⟨rules, goals, rewards, source⟩)

/-- Entries with a power or a bonus. -/
def valued : Wire (List (Nat × UInt64)) := list (count.pair word)

/-- The capabilities. -/
def capabilities : Wire Capabilities :=
  ((list count).pair <| valued.pair <| valued.pair <| valued.pair <| valued.pair <| valued.pair <|
    (list count).pair <| (list count).pair <| valued.pair valued).via
    (fun c => (c.npcs, c.pickaxes, c.hammers, c.weapons, c.armor, c.accessories, c.mechBosses,
      c.finalBosses, c.armorMinions, c.accessoryMinions))
    (fun (npcs, pickaxes, hammers, weapons, armor, accessories, mechBosses, finalBosses,
        armorMinions, accessoryMinions) =>
      { npcs, pickaxes, hammers, weapons, armor, accessories, mechBosses, finalBosses,
        armorMinions, accessoryMinions })

/-- A payload. -/
def payload : Wire Payload :=
  (metadata.pair <| (list rule).pair <| (list goal).pair <| (list label).pair <|
    (list reward).pair capabilities).via
    (fun p => (p.metadata, p.rules, p.goals, p.labels, p.rewards, p.capabilities))
    (fun (metadata, rules, goals, labels, rewards, capabilities) =>
      { metadata, rules, goals, labels, rewards, capabilities })

end Wire

end Reachability.Cache

namespace Reachability
open Cache

namespace Condition

mutual
/-- A tree with its functions spelled out. -/
def named : Tree → StoredTree
  | .item sign target quantity => .item sign target quantity
  | .location sign target => .location sign target
  | .call sign function argument => .call sign function.name argument
  | .group sign operator members => .group sign operator (namedAll members)

/-- Trees with their functions spelled out. -/
def namedAll : List Tree → List StoredTree
  | [] => []
  | c :: rest => named c :: namedAll rest
end

end Condition

/-- An entry as it is stored. -/
def Entry.stored (entry : Entry) : StoredRule where
  name := entry.name
  flags := entry.flags.entries.map fun (flag, argument) => (flag.name, argument)
  tree := entry.tree.named
  itemName := entry.itemName
  line := entry.line
  copy := entry.copy

/-- A goal as it is stored. -/
def Goal.stored (goal : Goal) : StoredGoal := ⟨goal.name, goal.stop, goal.locations.names⟩

/-- A table as it is stored, with the digest of its source. -/
def Table.payload (table : Table) (source : Option Blake3.Digest) : Payload where
  metadata := ⟨table.entries.length, table.goals.length, table.rewards.length, source⟩
  rules := table.entries.map Entry.stored
  goals := table.goals.map Goal.stored
  labels := table.labels
  rewards := table.rewards
  capabilities := table.capabilities

end Reachability
