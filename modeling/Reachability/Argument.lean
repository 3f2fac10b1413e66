import Reachability.Token.Escape

/-!
# Argument — what stands in parentheses

A flag or a function may carry one argument, a text or a number.
-/

namespace Reachability

/-- The argument of a flag or of a function. -/
inductive Argument where
  | text (text : String)
  | number (value : UInt64)
  deriving DecidableEq, Repr

namespace Argument

/-- The number, if the argument is one. -/
def number? : Argument → Option UInt64
  | text _ => none
  | number value => some value

/-- The text, if the argument is one. -/
def text? : Argument → Option String
  | text t => some t
  | number _ => none

/-- The argument as it is written in a line. -/
def written : Argument → List Char
  | text t => Token.escape t.toList
  | number value => Nat.toDigits 10 value.toNat

/-- The argument that a token is, if it can be one. -/
def ofToken? : Token → Option Argument
  | .word t => some (text t)
  | .number value => some (number value)
  | .mark _ => none

end Argument

/-- An optional argument as it is written, in its parentheses. -/
def writtenArgument : Option Argument → List Char
  | none => []
  | some a => '(' :: a.written ++ [')']

end Reachability
