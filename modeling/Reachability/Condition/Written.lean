import Reachability.Condition.Basic

/-!
# Condition — how conditions are written

The text of a condition in a line: `~` before a negated one, a quantity only if it is not one,
operators between blanks.
-/

namespace Reachability

/-- What stands between two conditions of one level. -/
def separator : Option Operator → List Char
  | none => [' ']
  | some operator => [' ', operator.char, ' ']

/-- What stands before a condition of a given sign. -/
def writtenSign (sign : Bool) : List Char := if sign then [] else ['~']

/-- A quantity, which is left out if it is one. -/
def writtenQuantity (quantity : UInt64) : List Char :=
  if quantity = 1 then [] else '(' :: Nat.toDigits 10 quantity.toNat ++ [')']

namespace Condition

mutual
/-- A condition as it is written. -/
def written : Statement → List Char
  | .item sign name quantity =>
    writtenSign sign ++ Token.escape name.toList ++ writtenQuantity quantity
  | .location sign name => writtenSign sign ++ '#' :: Token.escape name.toList
  | .call sign name argument => writtenSign sign ++ '@' :: name.toList ++ writtenArgument argument
  | .group sign operator members =>
    writtenSign sign ++ '(' :: writtenAll operator members ++ [')']

/-- The conditions of one level as they are written. -/
def writtenAll (operator : Option Operator) : List Statement → List Char
  | [] => []
  | c :: rest => written c ++ writtenMore operator rest

/-- The later conditions of one level, each after the separator. -/
def writtenMore (operator : Option Operator) : List Statement → List Char
  | [] => []
  | c :: rest => separator operator ++ written c ++ writtenMore operator rest
end

end Condition

end Reachability
