import Reachability.Sheet.RuleLine
import Reachability.Text.Lines

/-!
# Sheet — the rule sheet

The rules of a sheet in order, and its goals.  A goal spans the rules above its line.
-/

namespace Reachability

/-- The end of a goal in a list of rules. -/
structure GoalMarker where
  name : String
  /-- How many rules the goal spans. -/
  stop : Nat
  line : UInt64 := 0
  deriving DecidableEq, Repr

/-- A rule sheet. -/
structure RuleSheet where
  rules : List Rule := []
  goals : List GoalMarker := []

namespace RuleSheet
open Sheet

/-- The sheet with what its next line states. -/
def extend (sheet : RuleSheet) (line : Nat) : RuleLine → Except Fault RuleSheet
  | .blank => .ok sheet
  | .goal name =>
    if sheet.goals.any (·.name == name) then .error (.duplicateGoal name)
    else .ok { sheet with
      goals := sheet.goals ++ [⟨name, sheet.rules.length, UInt64.ofNat line⟩] }
  | .rule rule =>
    if sheet.rules.any (·.name == rule.name) then .error (.duplicateRule rule.name)
    else .ok { sheet with rules := sheet.rules ++ [rule] }

/-- The sheet with its next line read. -/
def addLine (sheet : RuleSheet) (line : Nat) (text : List Char) : Except Fault RuleSheet := do
  sheet.extend line (← readRuleLine line text)

/-- The sheet with more lines read, the first of which has the number `line`. -/
def addLines (sheet : RuleSheet) (line : Nat) : List (List Char) → Except SheetError RuleSheet
  | [] => .ok sheet
  | text :: rest =>
    match sheet.addLine line text with
    | .ok sheet => sheet.addLines (line + 1) rest
    | .error fault => .error ⟨.rules, line, fault⟩

/-- Reads a rule sheet. -/
def parse (text : String) : Except SheetError RuleSheet :=
  addLines {} 1 (Text.lines text.toList)

end RuleSheet

end Reachability
