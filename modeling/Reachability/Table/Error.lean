import Reachability.Builtin

/-!
# Table — why sheets do not compile

Each cause names the rule, goal, label or reward that it was found at.
-/

namespace Reachability

/-- Why a table cannot be made, or a condition cannot be read against a table. -/
inductive TableError where
  | undefinedItem (rule reference : String)
  | undefinedLocation (rule reference : String)
  | undefinedFunction (rule function : String)
  | badArgument (rule function : String)
  | badFlagValue (rule flag : String)
  | undefinedGoal (rule goal : String)
  | goalOutOfRange (goal : String) (stop : Nat)
  | goalOrder (goal : String)
  | duplicateGoal (goal : String)
  | duplicateLabel (label : String)
  | unlabeledReward (reward : String)
  | undefinedReward (label reward : String)
  | duplicateRule (name : String)
  | duplicateItem (item : String) (line : UInt64)
  | cyclicDependency (path : List String)
  deriving DecidableEq, Repr

namespace TableError

/-- The message of an error. -/
def message : TableError → String
  | undefinedItem rule reference => s!"item `{reference}` in `{rule}` is not defined"
  | undefinedLocation rule reference => s!"location `{reference}` in `{rule}` is not defined"
  | undefinedFunction rule function => s!"function `{function}` in `{rule}` is not defined"
  | badArgument rule function => s!"`@{function}` in `{rule}` requires an integer argument"
  | badFlagValue rule flag => s!"flag `{flag}` on `{rule}` requires an integer value"
  | undefinedGoal rule goal => s!"rule `{rule}` belongs to goal `{goal}`, which is not declared"
  | goalOutOfRange goal stop => s!"goal `{goal}` closes at rule {stop}, past the end of the table"
  | goalOrder goal => s!"goal `{goal}` closes before the goal declared ahead of it"
  | duplicateGoal goal => s!"duplicate goal `{goal}`"
  | duplicateLabel label => s!"duplicate label `{label}`"
  | unlabeledReward reward => s!"reward `{reward}` does not belong to any label"
  | undefinedReward label reward => s!"label `{label}` lists `{reward}`, which is not declared"
  | duplicateRule name => s!"duplicate rule name `{name}`"
  | duplicateItem item line => s!"item `{item}` on line {line.toNat} shadows a previous item"
  | cyclicDependency path => "cyclic dependency detected: " ++ String.intercalate " -> " path

end TableError

end Reachability
