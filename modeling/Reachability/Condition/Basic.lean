import Reachability.Argument

/-!
# Condition — signed tests

A condition asks for held items, for another rule's condition, for the answer of a function, or
joins conditions into a group.  `ρ` is how a condition refers to a rule and `φ` how it names a
function: both are texts in a sheet, and an index and a registered function in a table.
-/

namespace Reachability

/-- What joins the conditions of one group. -/
inductive Operator where
  | and
  | or
  deriving DecidableEq, Repr

/-- How an operator is written. -/
def Operator.char : Operator → Char
  | .and => '&'
  | .or => '|'

/-- A signed test; a false sign negates it. -/
inductive Condition (ρ φ : Type) where
  /-- So many copies of the item of a rule are held. -/
  | item (sign : Bool) (target : ρ) (quantity : UInt64)
  /-- The condition of a rule holds. -/
  | location (sign : Bool) (target : ρ)
  /-- A function answers yes. -/
  | call (sign : Bool) (function : φ) (argument : Option Argument)
  /-- Conditions joined by an operator. -/
  | group (sign : Bool) (operator : Option Operator) (members : List (Condition ρ φ))
  deriving Inhabited

namespace Condition
variable {ρ φ : Type}

/-- A property of conditions holds of all of them if it passes from the members of a group to the
group. -/
theorem induct {motive : Condition ρ φ → Prop}
    (item : ∀ sign target quantity, motive (.item sign target quantity))
    (location : ∀ sign target, motive (.location sign target))
    (call : ∀ sign function argument, motive (.call sign function argument))
    (group : ∀ sign operator members, (∀ c ∈ members, motive c) →
      motive (.group sign operator members)) :
    ∀ c, motive c
  | .item sign target quantity => item sign target quantity
  | .location sign target => location sign target
  | .call sign function argument => call sign function argument
  | .group sign operator members =>
    group sign operator members fun c _ => induct item location call group c

/-- The sign of a condition. -/
def sign : Condition ρ φ → Bool
  | .item sign _ _ | .location sign _ | .call sign _ _ | .group sign _ _ => sign

/-- The opposite condition. -/
def negate : Condition ρ φ → Condition ρ φ
  | .item sign target quantity => .item (!sign) target quantity
  | .location sign target => .location (!sign) target
  | .call sign function argument => .call (!sign) function argument
  | .group sign operator members => .group (!sign) operator members

/-- The condition with its quantity set, if it asks for an item. -/
def times (quantity : UInt64) : Condition ρ φ → Condition ρ φ
  | .item sign target _ => .item sign target quantity
  | c => c

/-- The conditions a group joins; others have none. -/
def members : Condition ρ φ → List (Condition ρ φ)
  | .group _ _ members => members
  | _ => []

mutual
/-- The rules a condition refers to, in order of appearance. -/
def references : Condition ρ φ → List ρ
  | .item _ target _ => [target]
  | .location _ target => [target]
  | .call .. => []
  | .group _ _ members => referencesAll members

/-- The rules that some conditions refer to, in order of appearance. -/
def referencesAll : List (Condition ρ φ) → List ρ
  | [] => []
  | c :: rest => references c ++ referencesAll rest
end

theorem referencesAll_eq_flatMap (cs : List (Condition ρ φ)) :
    referencesAll cs = cs.flatMap references := by
  induction cs with
  | nil => rfl
  | cons c rest ih => simp [referencesAll, ih]

end Condition

/-- A condition as a sheet states it. -/
abbrev Statement := Condition String String

end Reachability
