import Reachability.Condition.Basic
import Reachability.Token.Basic

/-!
# Sheet — what can be wrong with a sheet

A fault is one cause; an error says in which sheet and on which line it was found.  Columns and
lines count from 1.
-/

namespace Reachability

/-- The two kinds of sheet. -/
inductive SheetKind where
  | rules
  | rewards
  deriving DecidableEq, Repr

/-- What may stand at a place of a line. -/
inductive Expected where
  | nameOrHash
  | semi
  | flagOrSemi
  | afterFlag
  | flag
  | afterFlagArgument
  | argument
  | closing
  | conditionOrSemi
  | afterCondition
  | condition
  | name
  | afterFunction
  | endOfLine
  | goal
  | number
  deriving DecidableEq, Repr

/-- What is wrong with a line, and at which column. -/
inductive Fault where
  /-- A token, or the end of the line, stands where something else may. -/
  | unexpected (column : Nat) (found : Option Token) (expected : Expected)
  /-- A rule states a flag twice. -/
  | duplicateFlag (column : Nat) (flag : String)
  /-- The conditions end inside a group. -/
  | unclosedGroup (column : Nat)
  /-- A group is closed that was not opened. -/
  | unmatchedClosing (column : Nat)
  /-- Two operators stand on one level. -/
  | operatorConflict (column : Nat) (found existing : Operator)
  /-- A quantity is not positive. -/
  | nonNaturalQuantity (column : Nat) (value : UInt64)
  /-- A quantity follows something that is no item. -/
  | quantityTarget (column : Nat)
  /-- A name is given to a second rule. -/
  | duplicateRule (name : String)
  /-- A name is given to a second goal. -/
  | duplicateGoal (name : String)
  /-- A flag is not in the vocabulary. -/
  | unrecognizedFlag (rule flag : String)
  /-- A name is given to a second reward. -/
  | duplicateReward (name : String)
  /-- A name is given to a second label. -/
  | duplicateLabel (column : Nat) (name : String)
  /-- A reward stands before the first label. -/
  | unlabeledReward (name : String)
  deriving DecidableEq, Repr

/-- A fault and where it was found. -/
structure SheetError where
  sheet : SheetKind
  line : Nat
  fault : Fault
  deriving DecidableEq, Repr

/-- How messages name a sheet. -/
def SheetKind.name : SheetKind → String
  | rules => "rules"
  | rewards => "rewards"

/-- How messages name what may stand at a place. -/
def Expected.text : Expected → String
  | nameOrHash => "name or `#`"
  | semi => "`;`"
  | flagOrSemi => "flag or `;`"
  | afterFlag => "`;`, `|`, or `(`"
  | flag => "flag"
  | afterFlagArgument => "`;` or `|`"
  | argument => "text or number"
  | closing => "`)`"
  | conditionOrSemi => "name, `#`, `@`, `~`, `(`, or `;`"
  | afterCondition => "`;`, `&`, `|`, or `)`"
  | condition => "name, `#`, `@`, `~`, or `(`"
  | name => "name"
  | afterFunction => "`(`, `;`, `&`, `|`, or `)`"
  | endOfLine => "end of line"
  | goal => "goal"
  | number => "number"

/-- How messages name what was found. -/
def foundText : Option Token → String
  | none => Expected.endOfLine.text
  | some token => token.quoted

namespace Fault

/-- The column of a fault, if it has one. -/
def column? : Fault → Option Nat
  | unexpected column _ _ | duplicateFlag column _ | unclosedGroup column
  | unmatchedClosing column | operatorConflict column _ _ | nonNaturalQuantity column _
  | quantityTarget column | duplicateLabel column _ => some column
  | duplicateRule _ | duplicateGoal _ | unrecognizedFlag _ _ | duplicateReward _
  | unlabeledReward _ => none

/-- The message of a fault on a line. -/
def message (line : Nat) : Fault → String
  | unexpected column found expected =>
    s!"found {foundText found} at {line}:{column}; expected {expected.text}"
  | duplicateFlag column flag =>
    s!"set flag `{flag}` at {line}:{column} that was already set"
  | unclosedGroup column => s!"found `;` at {line}:{column} after unclosed `(`"
  | unmatchedClosing column => s!"found `)` at {line}:{column} without matching `(`"
  | operatorConflict column found existing =>
    s!"found `{found.char}` at {line}:{column} in group containing `{existing.char}`; use parentheses"
  | nonNaturalQuantity column value =>
    s!"quantity `{value.toNat}` at {line}:{column} must be a natural number"
  | quantityTarget column => s!"quantity at {line}:{column} must follow an item reference"
  | duplicateRule name => s!"rule `{name}` on line {line} shadows a previous rule"
  | duplicateGoal name => s!"goal `{name}` on line {line} shadows a previous goal"
  | unrecognizedFlag rule flag => s!"rule `{rule}` on line {line} has unrecognized flag `{flag}`"
  | duplicateReward name => s!"reward `{name}` on line {line} shadows a previous reward"
  | duplicateLabel column name =>
    s!"started label `{name}` at {line}:{column} that was already used"
  | unlabeledReward name => s!"reward `{name}` on line {line} is not labeled"

end Fault

/-- The message of an error. -/
def SheetError.message (error : SheetError) : String :=
  s!"in `{error.sheet.name}`, {error.fault.message error.line}"

end Reachability
