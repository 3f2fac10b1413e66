import Reachability.Builtin

/-!
# Session — why a query fails

A query fails on a name that the table does not have.  The other causes are faults of a table
that was put together by hand.
-/

namespace Reachability

/-- Why a session cannot be opened or a query cannot be answered. -/
inductive QueryError where
  /-- Several conditions stand in a group without an operator. -/
  | ambiguousOperator (count : Nat)
  /-- A function is called without the number it asks for. -/
  | badArgument (function : Builtin)
  | unknownGoal (goal : String)
  | unknownRule (name : String)
  | unknownLabel (label : String)
  /-- An index points outside the table. -/
  | missingEntry (index : Nat)
  /-- The trees of a table enter each other without end. -/
  | bottomlessDescent
  deriving DecidableEq, Repr

namespace QueryError

/-- The message of an error. -/
def message : QueryError → String
  | ambiguousOperator count => s!"found {count} conditions without an operator"
  | badArgument function => s!"`@{function.name}` requires an integer argument"
  | unknownGoal goal => s!"goal `{goal}` is not declared"
  | unknownRule name => s!"rule `{name}` is not declared"
  | unknownLabel label => s!"label `{label}` is not declared"
  | missingEntry index => s!"no rule has the index {index}"
  | bottomlessDescent => "the rules refer to each other without end"

end QueryError

end Reachability
