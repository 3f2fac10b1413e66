import Reachability.Condition.Written
import Reachability.Flag.Flags

/-!
# Rule — a line of the rule sheet

A rule has a name, flags, and conditions joined by one operator.
-/

namespace Reachability

/-- A rule as a sheet states it. -/
structure Rule where
  name : String
  flags : Flags := ∅
  operator : Option Operator := none
  conditions : List Statement := []
  /-- The line of the sheet, from 1; 0 for a rule made without a sheet. -/
  line : UInt64 := 0

namespace Rule

/-- The name of the item that the rule produces: the text of its `Item` flag or else its own name.
A rule without a flag that produces items has none. -/
def itemName? (rule : Rule) : Option String :=
  if rule.flags.any Flag.producesItem then
    some ((((rule.flags.get? .item).join).bind Argument.text?).getD rule.name)
  else none

/-- A rule as it is written in a line. -/
def written (rule : Rule) : List Char :=
  Token.escape rule.name.toList ++ ';' :: rule.flags.written ++
    ';' :: Condition.writtenAll rule.operator rule.conditions ++ [';']

/-- The text of a rule. -/
def text (rule : Rule) : String := String.ofList rule.written

end Rule

end Reachability
