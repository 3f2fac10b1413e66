import Reachability.Table.Basic

/-!
# Table — descents

Evaluating a condition enters the trees of other rules: those of its location references and, for
`@gear_power`, those of the gear.  A table is sound only if these descents never come back to
where they started.
-/

namespace Reachability

namespace Condition

mutual
/-- The rules whose trees the evaluation of a tree may enter, in order of appearance. -/
def descents (gear : List Nat) : Tree → List Nat
  | .item .. => []
  | .location _ target => [target]
  | .call _ function _ => if function = .gearPower then gear else []
  | .group _ _ members => descentsAll gear members

/-- The rules whose trees the evaluation of some trees may enter. -/
def descentsAll (gear : List Nat) : List Tree → List Nat
  | [] => []
  | c :: rest => descents gear c ++ descentsAll gear rest
end

theorem descentsAll_eq_flatMap (gear : List Nat) (cs : List Tree) :
    descentsAll gear cs = cs.flatMap (descents gear) := by
  induction cs with
  | nil => rfl
  | cons c rest ih => simp [descentsAll, ih]

end Condition

namespace Descent

/-- The cycle that going from the newest node of `path` to `node` closes, from `node` to `node`;
`path` lists its nodes the newest first. -/
def cycleAt (path : List Nat) (node : Nat) : List Nat :=
  node :: (path.takeWhile (· != node)).reverse ++ [node]

/-- Searches for a cycle below `node`, depth first.  `path` are the nodes on the way to it, the
newest first, and `done` the nodes below which there is none.  The answer is a cycle or the nodes
now done. -/
def visit (next : Nat → List Nat) : Nat → List Nat → List Nat → Nat → Except (List Nat) (List Nat)
  | 0, _, done, _ => .ok done
  | fuel + 1, path, done, node =>
    if done.contains node then .ok done
    else if path.contains node then .error (cycleAt path node)
    else do
      let done ← (next node).foldlM (visit next fuel (node :: path)) done
      return node :: done

/-- A cycle among the nodes `0 … count - 1`, if there is one.  A path without repetition has at
most `count` nodes, so the search never runs out of depth. -/
def findCycle? (count : Nat) (next : Nat → List Nat) : Option (List Nat) :=
  match (List.range count).foldlM (visit next (count + 1) []) [] with
  | .ok _ => none
  | .error cycle => some cycle

end Descent

/-- The rules whose trees the tree of rule `index` may enter. -/
def descentsOf (entries : List Entry) (capabilities : Capabilities) (index : Nat) : List Nat :=
  match entries[index]? with
  | none => []
  | some entry => entry.tree.descents capabilities.gear

/-- The names along a cycle of descents, if there is one. -/
def cyclicNames? (entries : List Entry) (capabilities : Capabilities) : Option (List String) :=
  (Descent.findCycle? entries.length (descentsOf entries capabilities)).map fun cycle =>
    cycle.filterMap fun index => (entries[index]?).map Entry.name

end Reachability
