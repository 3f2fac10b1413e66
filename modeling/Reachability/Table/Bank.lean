import Reachability.Rule.Basic
import Reachability.Table.Basic

/-!
# Table — the entries of a rule

A rule that places items at many locations becomes a bank: a base entry without flags, then
numbered copies that carry the flags.  Every other rule becomes one entry.
-/

namespace Reachability

/-- How many numbered copies a bank has. -/
def bankSize : Nat := 100

/-- One entry of a rule, before its condition is resolved. -/
structure Slot where
  name : String
  flags : Flags
  copy : Option UInt32

namespace Rule

/-- Whether the rule becomes a bank. -/
def isBank (rule : Rule) : Bool := rule.flags.any Flag.isMultiLocation

/-- The numbered copy `n` of a bank. -/
def copySlot (rule : Rule) (n : Nat) : Slot :=
  ⟨s!"{rule.name} {n}", rule.flags, some (UInt32.ofNat n)⟩

/-- The entries of a rule, before its condition is resolved. -/
def slots (rule : Rule) : List Slot :=
  if rule.isBank then
    ⟨rule.name, ∅, none⟩ :: (List.range' 1 bankSize).map rule.copySlot
  else [⟨rule.name, rule.flags, none⟩]

/-- How many entries the rule has. -/
def width (rule : Rule) : Nat := if rule.isBank then bankSize + 1 else 1

theorem length_slots (rule : Rule) : rule.slots.length = rule.width := by
  unfold slots width
  split <;> simp

end Rule

/-- How many entries the first `count` rules have. -/
def entriesBefore : List Rule → Nat → Nat
  | rule :: rest, count + 1 => rule.width + entriesBefore rest count
  | _, _ => 0

/-- Each rule with the index of its first entry, where the first rule starts at `start`. -/
def placeRules (start : Nat) : List Rule → List (Rule × Nat)
  | [] => []
  | rule :: rest => (rule, start) :: placeRules (start + rule.width) rest

end Reachability
