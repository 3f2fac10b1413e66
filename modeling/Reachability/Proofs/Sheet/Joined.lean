import Reachability.Proofs.Condition
import Reachability.Proofs.Sheet.RuleLine
import Reachability.Proofs.Sheet.Rules

/-!
# Sheet — what is read is joined

The grammar gives every level of several terms an operator, so the conditions of a rule sheet have
no group of several conditions without one.
-/

namespace Reachability

namespace Sheet.Grammar

open Condition

mutual
/-- A term is joined. -/
theorem joined_term : ∀ {ts : List Token} {c : Statement}, Term ts c → c.Joined
  | _, _, .intro _ hatom => joined_atom hatom

/-- An atom is joined. -/
theorem joined_atom : ∀ {sign : Bool} {ts : List Token} {c : Statement}, Atom sign ts c → c.Joined
  | _, _, _, .item .. => joined_item
  | _, _, _, .location .. => joined_location
  | _, _, _, .call .. => joined_call
  | _, _, _, .group _ hexpr => joined_expr hexpr

/-- A group around an expression is joined. -/
theorem joined_expr : ∀ {sign : Bool} {ts : List Token} {operator : Option Operator}
    {cs : List Statement}, Expr ts operator cs →
    (Condition.group sign operator cs : Statement).Joined
  | _, _, _, _, .single hterm => joined_group.mpr
      ⟨fun _ => Nat.le_refl 1, List.forall_mem_singleton.mpr (joined_term hterm)⟩
  | _, _, _, _, .joined _ hterm hmore => joined_group.mpr
      ⟨nofun, List.forall_mem_cons.mpr ⟨joined_term hterm, joined_more hmore⟩⟩

/-- The terms after the first are joined. -/
theorem joined_more : ∀ {operator : Operator} {ts : List Token} {cs : List Statement},
    More operator ts cs → ∀ c ∈ cs, c.Joined
  | _, _, _, .nil _ => nofun
  | _, _, _, .cons _ hterm hmore =>
    List.forall_mem_cons.mpr ⟨joined_term hterm, joined_more hmore⟩
end

end Sheet.Grammar

open Sheet

/-- The conditions of a rule are joined, taken as one group. -/
def Rule.Joined (rule : Rule) : Prop :=
  (Condition.group true rule.operator rule.conditions : Statement).Joined

/-- Nothing is joined. -/
theorem joined_nil {sign : Bool} : (Condition.group sign none [] : Statement).Joined :=
  Condition.joined_group.mpr ⟨fun _ => Nat.zero_le 1, nofun⟩

/-- The conditions of a rule that the grammar derives are joined. -/
theorem Sheet.Grammar.joined_line {line : Nat} {ts : List Token} {rule : Rule}
    (h : Line line ts (.rule rule)) : rule.Joined := by
  cases h with
  | name | flags => exact joined_nil
  | conditions name flags hexpr =>
    cases hexpr with
    | none => exact joined_nil
    | some hexpr => exact joined_expr hexpr

/-- The rules of a sheet that is read are joined. -/
theorem RuleSheet.joined_of_parse {text : String} {sheet : RuleSheet}
    (h : RuleSheet.parse text = .ok sheet) : ∀ rule ∈ sheet.rules, rule.Joined := by
  intro rule hrule
  obtain ⟨line, cs, -, hread⟩ := RuleSheet.exists_line_of_mem h rule hrule
  exact Sheet.Grammar.joined_line (readRuleTokens_sound hread)

end Reachability
