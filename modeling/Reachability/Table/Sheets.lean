import Reachability.Error
import Reachability.Table.Compile

/-!
# Table — from two texts

Reads a rule sheet and a reward sheet and compiles them.
-/

namespace Reachability

/-- The table of two texts. -/
def Table.ofTexts (rules rewards : String) : Except Error Table :=
  match RuleSheet.parse rules with
  | .error error => .error (.sheet error)
  | .ok ruleSheet =>
    match RewardSheet.parse rewards with
    | .error error => .error (.sheet error)
    | .ok rewardSheet =>
      match Table.compile ruleSheet rewardSheet with
      | .error error => .error (.table error)
      | .ok table => .ok table

end Reachability
