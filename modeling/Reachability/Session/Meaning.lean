import Reachability.Session.Error
import Reachability.Table.Basic

/-!
# Session — the value of a tree

The value of a tree is put together from the answers of a `Meaning`, which tells what items,
locations and functions say.  A group is read up to the first condition that decides it.
-/

namespace Reachability

/-- What the conditions without members say. -/
structure Meaning where
  item : Nat → UInt64 → Except QueryError Bool
  location : Nat → Except QueryError Bool
  call : Builtin → Option Argument → Except QueryError Bool

/-- The value of a group whose conditions have the values `results`.  A group without an operator
has at most one condition. -/
def combine (operator : Option Operator) (results : List Bool) : Except QueryError Bool :=
  match operator, results with
  | none, [] => .ok true
  | none, [result] => .ok result
  | none, _ => .error (.ambiguousOperator results.length)
  | some .and, _ => .ok (results.all id)
  | some .or, _ => .ok (results.any id)

namespace Condition
variable (meaning : Meaning)

mutual
/-- The value of a tree. -/
def evaluate : Tree → Except QueryError Bool
  | .item sign target quantity => (sign == ·) <$> meaning.item target quantity
  | .location sign target => (sign == ·) <$> meaning.location target
  | .call sign function argument => (sign == ·) <$> meaning.call function argument
  | .group sign none members => (sign == ·) <$> evaluateOnly members
  | .group sign (some .and) members => (sign == ·) <$> evaluateAll members
  | .group sign (some .or) members => (sign == ·) <$> evaluateAny members

/-- The value of the only tree; without one, yes. -/
def evaluateOnly : List Tree → Except QueryError Bool
  | [] => .ok true
  | [c] => evaluate c
  | c :: d :: rest => .error (.ambiguousOperator (c :: d :: rest).length)

/-- Whether all trees hold, read up to the first that does not. -/
def evaluateAll : List Tree → Except QueryError Bool
  | [] => .ok true
  | c :: rest => do if ← evaluate c then evaluateAll rest else return false

/-- Whether some tree holds, read up to the first that does. -/
def evaluateAny : List Tree → Except QueryError Bool
  | [] => .ok false
  | c :: rest => do if ← evaluate c then return true else evaluateAny rest
end

end Condition

end Reachability
