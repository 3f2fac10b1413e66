import Reachability.Proofs.Outcome
import Reachability.Proofs.Sheet.Automaton
import Reachability.Proofs.Token.Columns
import Reachability.Sheet.Rules

/-!
# Sheet — where the fault of a line lies

A fault of a line points at one of its tokens or at its end (`Fault.PointsAt`).  For a line of rules
this is seen from the automaton, which fails at the token that it takes or at the end of the line
and nowhere else.  Tokens lie within the line, and so does the end of the last of them as it reads,
so the column of a fault does (`Fault.InLine`).
-/

namespace Reachability

open Sheet
open Except (FailsOnly failsOnly_ok)

namespace Fault

/-- If the fault has a column, it is `stop` or the column of one of the tokens. -/
def PointsAt (stop : Nat) (tokens : List Placed) (fault : Fault) : Prop :=
  ∀ column ∈ fault.column?, column = stop ∨ ∃ t ∈ tokens, column = t.column + 1

/-- If the fault has a column, it is that of a character of the line or of its end. -/
def InLine (cs : List Char) (fault : Fault) : Prop :=
  ∀ column ∈ fault.column?, 1 ≤ column ∧ column ≤ cs.length + 1

variable {stop : Nat} {tokens : List Placed} {fault : Fault}

theorem pointsAt_of_column?_eq_none (h : fault.column? = none) : PointsAt stop tokens fault := by
  rw [PointsAt, h]
  nofun

theorem inLine_of_column?_eq_none {cs : List Char} (h : fault.column? = none) :
    InLine cs fault := by
  rw [InLine, h]
  nofun

theorem pointsAt_of_mem {t : Placed} (ht : t ∈ tokens) (h : fault.column? = some (t.column + 1)) :
    PointsAt stop tokens fault := by
  rw [PointsAt, h]
  rintro _ ⟨⟩
  exact .inr ⟨t, ht, rfl⟩

/-- Pointing at some tokens is pointing at more of them. -/
theorem PointsAt.mono {more : List Placed} (hsub : ∀ t ∈ tokens, t ∈ more)
    (h : PointsAt stop tokens fault) : PointsAt stop more fault := fun column hcolumn =>
  (h column hcolumn).imp_right fun ⟨t, ht, heq⟩ => ⟨t, hsub t ht, heq⟩

theorem pointsAt_misplaced (stop : Nat) (tokens : List Placed) (expected : Expected) :
    PointsAt stop tokens (misplaced stop tokens expected) := by
  cases tokens with
  | nil =>
    rintro _ ⟨⟩
    exact .inl rfl
  | cons t rest => exact pointsAt_of_mem List.mem_cons_self rfl

end Fault

namespace Sheet

/-! ### The automaton -/

/-- A step that fails does so at this column. -/
abbrev FailsOnlyAt {α : Type} (column : Nat) (x : Except Fault α) : Prop :=
  x.FailsOnly fun fault => fault.column? = some column

theorem failsOnlyAt_error {α : Type} {column : Nat} {fault : Fault}
    (h : fault.column? = some column) : FailsOnlyAt column (.error fault : Except Fault α) := by
  rintro _ ⟨⟩
  exact h

theorem Level.join_failsOnlyAt (level : Level) (column : Nat) (operator : Operator) :
    FailsOnlyAt column (level.join column operator) := by
  unfold Level.join
  split
  · exact failsOnly_ok _
  · split
    · exact failsOnly_ok _
    · exact failsOnlyAt_error rfl

namespace LineReader

variable (reader : LineReader) (placed : Placed)

theorem addFlag_failsOnlyAt (column : Nat) (flag : String) :
    FailsOnlyAt column (reader.addFlag column flag) := by
  unfold addFlag
  split
  · exact failsOnlyAt_error rfl
  · exact failsOnly_ok _

theorem separate_failsOnlyAt : FailsOnlyAt (placed.column + 1) (reader.separate placed) := by
  have hjoin (operator : Operator) :
      FailsOnlyAt (placed.column + 1) (reader.join (placed.column + 1) operator) :=
    (reader.level.join_failsOnlyAt _ _).bind fun _ _ => failsOnly_ok _
  unfold separate
  split
  · split
    · exact failsOnly_ok _
    · exact failsOnlyAt_error rfl
  · exact hjoin .and
  · exact hjoin .or
  · split
    · exact failsOnlyAt_error rfl
    · exact failsOnly_ok _
  · exact failsOnlyAt_error rfl

theorem startCondition_failsOnlyAt :
    FailsOnlyAt (placed.column + 1) (reader.startCondition placed) := by
  unfold startCondition
  split
  all_goals first
    | exact failsOnly_ok _
    | exact failsOnlyAt_error rfl

/-- The automaton fails at the token that it takes. -/
theorem step_failsOnlyAt : FailsOnlyAt (placed.column + 1) (reader.step placed) := by
  obtain ⟨state, name, goal, flags, function, sign, level, outer⟩ := reader
  obtain ⟨column, token⟩ := placed
  cases state
  case condition => exact startCondition_failsOnlyAt _ _
  case afterCondition =>
    rcases token with _ | _ | m
    case mark =>
      cases m
      case opening =>
        -- a quantity may follow an item and nothing else
        obtain ⟨operator, _ | ⟨newest, older⟩⟩ := level
        · exact failsOnlyAt_error rfl
        · cases newest <;> first
            | exact failsOnly_ok _
            | exact failsOnlyAt_error rfl
      all_goals exact separate_failsOnlyAt _ _
    all_goals exact separate_failsOnlyAt _ _
  all_goals rcases token with _ | n | m
  case quantity.number =>
    change FailsOnlyAt (column + 1) (if n = 0 then _ else _)
    split
    · exact failsOnlyAt_error rfl
    · exact failsOnly_ok _
  all_goals first
    | exact failsOnly_ok _
    | exact failsOnlyAt_error rfl
    | exact addFlag_failsOnlyAt _ _ _
    | exact startCondition_failsOnlyAt _ _
    | cases m <;> first
      | exact failsOnly_ok _
      | exact failsOnlyAt_error rfl
      | exact separate_failsOnlyAt _ _

/-- A flag outside the vocabulary is a fault of the whole rule. -/
theorem recognizeFlags_failsOnly (rule : String) (named : NamedFlags) :
    (recognizeFlags rule named).FailsOnly fun fault => fault.column? = none := by
  intro fault h
  obtain ⟨entry, -, flags, h⟩ := Except.exists_of_foldlM_eq_error h
  split at h
  · cases h
  · cases h
    rfl

theorem finish_failsOnly (stop line : Nat) (reader : LineReader) (tokens : List Placed) :
    (reader.finish stop line).FailsOnly (Fault.PointsAt stop tokens) := by
  unfold finish
  split
  · split
    · exact failsOnly_ok _
    · exact failsOnly_ok _
    · refine FailsOnly.bind (fun fault h => ?_) fun _ _ => failsOnly_ok _
      exact Fault.pointsAt_of_column?_eq_none (recognizeFlags_failsOnly _ _ fault h)
  · rintro _ ⟨⟩ _ ⟨⟩
    exact .inl rfl

/-- The automaton fails at the end of the line or at a token in front of it. -/
theorem finishFrom_failsOnly (stop line : Nat) (reader : LineReader) (tokens : List Placed) :
    (reader.finishFrom stop line tokens).FailsOnly (Fault.PointsAt stop tokens) := by
  induction tokens generalizing reader with
  | nil => exact finish_failsOnly stop line reader []
  | cons placed rest ih =>
    refine FailsOnly.bind (fun fault h => ?_) fun next _ fault h => ?_
    · exact Fault.pointsAt_of_mem List.mem_cons_self (step_failsOnlyAt reader placed fault h)
    · exact (ih next fault h).mono fun t ht => List.mem_cons_of_mem placed ht

end LineReader

/-! ### The tokens of a line -/

theorem readRuleTokens_failsOnly (stop line : Nat) (tokens : List Placed) :
    (readRuleTokens stop line tokens).FailsOnly (Fault.PointsAt stop tokens) := by
  rw [← LineReader.run_eq_readRuleTokens]
  exact LineReader.finishFrom_failsOnly stop line {} tokens

/-- What is misplaced at the end of some tokens is misplaced among them. -/
theorem misplaced_failsOnly {α : Type} {stop : Nat} {tokens rest : List Placed}
    {expected : Expected} (hrest : rest <:+ tokens) :
    (.error (misplaced stop rest expected) : Except Fault α).FailsOnly
      (Fault.PointsAt stop tokens) := by
  rintro _ ⟨⟩
  exact (Fault.pointsAt_misplaced stop rest expected).mono fun _ ht => hrest.subset ht

theorem endOfLine_failsOnly {α : Type} {stop : Nat} {tokens rest : List Placed} (value : α)
    (hrest : rest <:+ tokens) :
    (do endOfLine stop rest; return value : Except Fault α).FailsOnly
      (Fault.PointsAt stop tokens) := by
  refine FailsOnly.bind ?_ fun _ _ => failsOnly_ok _
  unfold endOfLine
  split
  · exact failsOnly_ok _
  · exact misplaced_failsOnly hrest

theorem readRewardTokens_failsOnly (stop : Nat) (used : List String) (tokens : List Placed) :
    (readRewardTokens stop used tokens).FailsOnly (Fault.PointsAt stop tokens) := by
  unfold readRewardTokens
  split
  · exact failsOnly_ok _
  · split
    · next hash rest column name rest' =>
      split
      · rintro _ ⟨⟩
        refine Fault.pointsAt_of_mem (t := ⟨column, .word name⟩) ?_ rfl
        exact List.mem_cons_of_mem _ List.mem_cons_self
      · exact endOfLine_failsOnly _ (by simp [List.suffix_cons_iff])
    · exact misplaced_failsOnly (List.suffix_cons _ _)
  · split
    · split
      · split
        · exact endOfLine_failsOnly _ (by simp [List.suffix_cons_iff])
        · exact misplaced_failsOnly (by simp [List.suffix_cons_iff])
      · exact misplaced_failsOnly (by simp [List.suffix_cons_iff])
    · exact misplaced_failsOnly (List.suffix_cons _ _)
  · exact misplaced_failsOnly List.suffix_rfl

/-! ### The line -/

/-- The end of a line, by the last of its tokens as it reads, is not beyond its end. -/
theorem endColumn_scan_le (cs : List Char) : endColumn (Token.scan cs) ≤ cs.length + 1 := by
  unfold endColumn
  split
  · omega
  · next last hlast =>
    have := Token.column_add_length_le (List.mem_of_getLast? hlast)
    omega

theorem one_le_endColumn (tokens : List Placed) : 1 ≤ endColumn tokens := by
  unfold endColumn
  split <;> omega

end Sheet

/-- A fault that points at the tokens of a line lies within it. -/
theorem Fault.PointsAt.inLine {cs : List Char} {fault : Fault}
    (h : fault.PointsAt (endColumn (Token.scan cs)) (Token.scan cs)) : fault.InLine cs := by
  intro column hcolumn
  rcases h column hcolumn with rfl | ⟨t, ht, rfl⟩
  · exact ⟨one_le_endColumn _, endColumn_scan_le cs⟩
  · have := Token.column_add_length_le ht
    omega

/-- What a line of rules is at fault for lies within it. -/
theorem RuleSheet.addLine_failsOnly (sheet : RuleSheet) (line : Nat) (cs : List Char) :
    (sheet.addLine line cs).FailsOnly (Fault.InLine cs) := by
  refine FailsOnly.bind (fun fault h => ?_) fun value _ fault h => ?_
  · exact (readRuleTokens_failsOnly _ line _ fault h).inLine
  · -- the sheet above refuses a name and not a place
    refine Fault.inLine_of_column?_eq_none ?_
    unfold extend at h
    split at h
    · cases h
    all_goals
      split at h
      · cases h
        rfl
      · cases h

/-- What a line of rewards is at fault for lies within it. -/
theorem RewardSheet.addLine_failsOnly (sheet : RewardSheet) (line : Nat) (cs : List Char) :
    (sheet.addLine line cs).FailsOnly (Fault.InLine cs) := by
  refine FailsOnly.bind (fun fault h => ?_) fun value _ fault h => ?_
  · exact (readRewardTokens_failsOnly _ _ _ fault h).inLine
  · refine Fault.inLine_of_column?_eq_none ?_
    unfold extend at h
    dsimp only at h
    split at h
    · cases h
    · cases h
    · split at h
      · cases h
        rfl
      · split at h <;> cases h
        rfl

end Reachability
