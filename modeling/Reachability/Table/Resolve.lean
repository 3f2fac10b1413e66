import Reachability.Table.Basic
import Reachability.Table.Error

/-!
# Table — resolving names

A condition of a sheet becomes a tree: each rule it names is replaced by the index of the rule and
each function by the registered one.
-/

namespace Reachability.Condition

/-- Whether a call gives the function the number it asks for. -/
def suits (function : Builtin) (argument : Option Argument) : Bool :=
  !function.takesNumber || (argument.bind Argument.number?).isSome

/-- The function called `name`, if the call suits it; `owner` is the rule that calls it. -/
def resolveCall (owner name : String) (argument : Option Argument) : Except TableError Builtin :=
  match Builtin.ofName? name with
  | none => .error (.undefinedFunction owner name)
  | some function =>
    if suits function argument then .ok function else .error (.badArgument owner name)

section
variable (names : List String) (owner : String)

mutual
/-- The tree of a condition of the rule `owner`, where `names` are the names of all rules. -/
def resolve : Statement → Except TableError Tree
  | .item sign name quantity =>
    match names.idxOf? name with
    | some index => .ok (.item sign index quantity)
    | none => .error (.undefinedItem owner name)
  | .location sign name =>
    match names.idxOf? name with
    | some index => .ok (.location sign index)
    | none => .error (.undefinedLocation owner name)
  | .call sign name argument => do
    let function ← resolveCall owner name argument
    return .call sign function argument
  | .group sign operator members => do
    let members ← resolveAll members
    return .group sign operator members

/-- The trees of some conditions. -/
def resolveAll : List Statement → Except TableError (List Tree)
  | [] => .ok []
  | c :: rest => do
    let tree ← resolve c
    let trees ← resolveAll rest
    return tree :: trees
end

end

end Reachability.Condition
