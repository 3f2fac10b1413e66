import Reachability.Proofs.Outcome
import Reachability.Sheet.Rules

/-!
# Sheet — the rules of a sheet

Reading a sheet adds its lines one after the other (`RuleSheet.parse_induct`).  Every rule of a
sheet is what one of its lines states, and no two rules have the same name.
-/

namespace Reachability.RuleSheet

open Sheet

/-- What holds of the empty sheet and passes from a sheet to the sheet with one more line of the
text holds of the sheet that is read from the text. -/
theorem parse_induct {motive : RuleSheet → Prop} {text : String} {sheet : RuleSheet}
    (hstep : ∀ before line, ∀ cs ∈ Text.lines text.toList, ∀ after, motive before →
      before.addLine line cs = .ok after → motive after)
    (hstart : motive {}) (h : parse text = .ok sheet) : motive sheet := by
  rw [parse] at h
  generalize Text.lines text.toList = lines at hstep h
  -- the line numbers and the sheet so far change from line to line
  suffices hrun : ∀ {before : RuleSheet} {line : Nat}, motive before →
      before.addLines line lines = .ok sheet → motive sheet from hrun hstart h
  clear hstart h
  induction lines with
  | nil =>
    intro before line hbefore h
    cases h
    exact hbefore
  | cons cs rest ih =>
    intro before line hbefore h
    rw [addLines] at h
    split at h
    · next after hafter =>
      exact ih (fun b l c hc => hstep b l c (List.mem_cons_of_mem cs hc))
        (hstep before line cs List.mem_cons_self after hbefore hafter) h
    · cases h

/-- A line leaves the rules of a sheet as they are or adds a rule of a new name. -/
theorem rules_of_addLine {before after : RuleSheet} {line : Nat} {cs : List Char}
    (h : before.addLine line cs = .ok after) :
    after.rules = before.rules ∨
      ∃ rule, readRuleLine line cs = .ok (.rule rule) ∧
        rule.name ∉ before.rules.map Rule.name ∧ after.rules = before.rules ++ [rule] := by
  obtain ⟨value, hvalue, h⟩ := Except.bind_eq_ok_iff.mp h
  cases value with
  | blank =>
    cases h
    exact .inl rfl
  | goal name =>
    rw [extend] at h
    split at h
    · cases h
    · cases h
      exact .inl rfl
  | rule rule =>
    rw [extend] at h
    split at h
    · cases h
    · next hnew =>
      cases h
      exact .inr ⟨rule, hvalue, by simpa using hnew, rfl⟩

/-- Every rule of a sheet is what some line of the text states. -/
theorem exists_line_of_mem {text : String} {sheet : RuleSheet} (h : parse text = .ok sheet) :
    ∀ rule ∈ sheet.rules, ∃ line, ∃ cs ∈ Text.lines text.toList,
      readRuleLine line cs = .ok (.rule rule) := by
  refine parse_induct (motive := fun sheet => ∀ rule ∈ sheet.rules, ∃ line,
    ∃ cs ∈ Text.lines text.toList, readRuleLine line cs = .ok (.rule rule))
    (fun before line cs hcs after hbefore hafter => ?_) nofun h
  rcases rules_of_addLine hafter with hrules | ⟨rule, hrule, -, hrules⟩
  · rwa [hrules]
  · rw [hrules, List.forall_mem_append, List.forall_mem_singleton]
    exact ⟨hbefore, line, cs, hcs, hrule⟩

/-- The rules of a sheet have different names. -/
theorem nodup_names_of_parse {text : String} {sheet : RuleSheet} (h : parse text = .ok sheet) :
    (sheet.rules.map Rule.name).Nodup := by
  refine parse_induct (motive := fun sheet => (sheet.rules.map Rule.name).Nodup)
    (fun before line cs _ after hbefore hafter => ?_) List.nodup_nil h
  rcases rules_of_addLine hafter with hrules | ⟨rule, -, hnew, hrules⟩
  · rwa [hrules]
  · rw [hrules, List.map_append, List.nodup_append]
    refine ⟨hbefore, by simp, ?_⟩
    rintro _ hname _ hmem rfl
    rw [List.map_singleton, List.mem_singleton] at hmem
    exact hnew (hmem ▸ hname)

end Reachability.RuleSheet
