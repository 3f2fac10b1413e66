import Reachability.Proofs.Outcome
import Reachability.Proofs.Sheet.FlagList

/-!
# Sheet — a line is read exactly if the grammar derives it

The two directions meet here: the readers of flags and of conditions are put together to the
reader of a line, and the automaton that takes one token after the other gives the same.
-/

namespace Reachability.Sheet

open Grammar

variable {stop : Nat}

/-- Conditions start with a token that a condition can start with. -/
theorem startsCondition_expr {ts : List Token} {operator : Option Operator} {cs : List Statement}
    (h : Expr ts operator cs) : ∃ t us, ts = t :: us ∧ startsCondition t = true := by
  have term {ts : List Token} {c : Statement} (h : Term ts c) :
      ∃ t us, ts = t :: us ∧ startsCondition t = true := by
    obtain ⟨n, hatom⟩ := h
    cases n with
    | zero => cases hatom <;> exact ⟨_, _, rfl, rfl⟩
    | succ n => exact ⟨_, _, rfl, rfl⟩
  cases h with
  | single hterm => exact term hterm
  | joined operator hterm hmore =>
    obtain ⟨t, us, rfl, ht⟩ := term hterm
    exact ⟨t, _, rfl, ht⟩

/-- The conditions that the grammar derives are read. -/
theorem readConditions_complete {ts : List Token} {operator : Option Operator}
    {cs : List Statement} (h : OptionalExpr ts operator cs) {ps : List Placed} {column : Nat}
    (hps : ps.map Placed.token = ts) :
    readConditions stop (ps ++ [⟨column, .mark .semi⟩]) = .ok ⟨operator, cs.reverse⟩ := by
  cases h with
  | none =>
    obtain rfl := List.map_eq_nil_iff.mp hps
    rfl
  | some hexpr =>
    have hread : atCondition stop [] {} true (ps ++ [⟨column, .mark .semi⟩]) =
        .ok ⟨operator, cs.reverse⟩ := atCondition_expr hexpr hps rfl
    obtain ⟨t, us, rfl, ht⟩ := startsCondition_expr hexpr
    obtain ⟨_, ps, rfl, -⟩ := exists_placed hps
    cases t with
    | word => exact hread
    | number => cases ht
    | mark mark =>
      cases mark with
      | hash | atSign | tilde | opening => exact hread
      | semi | amp | bar | closing => cases ht

/-- A rule is put together from its flags and its conditions. -/
theorem readRule_eq_ok_iff {line : Nat} {name : String} {tokens : List Placed} {rule : Rule} :
    readRule stop line name tokens = .ok rule ↔
      ∃ named rest level flags, readOptionalFlags stop tokens = .ok (named, rest) ∧
        readConditions stop rest = .ok level ∧ recognizeFlags name named = .ok flags ∧
        rule = { name, flags, operator := level.operator, conditions := level.conditions,
                 line := UInt64.ofNat line } := by
  constructor
  · intro h
    obtain ⟨⟨named, rest⟩, hnamed, h⟩ := Except.bind_eq_ok_iff.mp h
    obtain ⟨level, hlevel, h⟩ := Except.bind_eq_ok_iff.mp h
    obtain ⟨flags, hflags, h⟩ := Except.bind_eq_ok_iff.mp h
    cases h
    exact ⟨named, rest, level, flags, hnamed, hlevel, hflags, rfl⟩
  · rintro ⟨named, rest, level, flags, hnamed, hlevel, hflags, rfl⟩
    simp only [readRule, hnamed, hlevel, hflags, bind, Except.bind, pure, Except.pure]

/-- The flags of a rule are read from their tokens and recognized. -/
theorem readFlags_of_tokens (flags : Flags) {name : String} {ps rest : List Placed} {column : Nat}
    (h : ps.map Placed.token = flagsTokens flags) :
    readOptionalFlags stop (ps ++ ⟨column, .mark .semi⟩ :: rest) = .ok (flags.named, rest) ∧
      recognizeFlags name flags.named = .ok flags :=
  ⟨readOptionalFlags_complete flags.nodup_named (h.trans (flagsTokens_eq flags)),
    (recognizeFlags_eq_ok_iff flags.nodup_named).mpr rfl⟩

variable {line : Nat} {tokens : List Placed} {value : RuleLine}

/-- A line that the grammar derives is read as what it states. -/
theorem readRuleTokens_complete (h : Line line (tokens.map Placed.token) value) :
    readRuleTokens stop line tokens = .ok value := by
  generalize hts : tokens.map Placed.token = ts at h
  cases h with
  | blank =>
    obtain rfl := List.map_eq_nil_iff.mp hts
    rfl
  | goal name =>
    obtain ⟨_, _, rfl, h₁⟩ := exists_placed hts
    obtain ⟨_, _, rfl, h₂⟩ := exists_placed h₁
    obtain rfl := List.map_eq_nil_iff.mp h₂
    rfl
  | name name =>
    obtain ⟨_, _, rfl, h₁⟩ := exists_placed hts
    obtain ⟨_, _, rfl, h₂⟩ := exists_placed h₁
    obtain rfl := List.map_eq_nil_iff.mp h₂
    rfl
  | flags name flags =>
    obtain ⟨_, _, rfl, h₁⟩ := exists_placed hts
    obtain ⟨_, _, rfl, h₂⟩ := exists_placed h₁
    obtain ⟨ps, _, rfl, hps, h₃⟩ := List.map_eq_append_iff.mp h₂
    obtain ⟨_, _, rfl, h₄⟩ := exists_placed h₃
    obtain rfl := List.map_eq_nil_iff.mp h₄
    obtain ⟨hread, hrecognize⟩ := readFlags_of_tokens flags hps
    exact congrArg (RuleLine.rule <$> ·)
      (readRule_eq_ok_iff.mpr ⟨_, _, {}, _, hread, rfl, hrecognize, rfl⟩)
  | conditions name flags hexpr =>
    simp only [List.append_assoc, List.cons_append] at hts
    obtain ⟨_, _, rfl, h₁⟩ := exists_placed hts
    obtain ⟨_, _, rfl, h₂⟩ := exists_placed h₁
    obtain ⟨ps, _, rfl, hps, h₃⟩ := List.map_eq_append_iff.mp h₂
    obtain ⟨_, _, rfl, h₄⟩ := exists_placed h₃
    obtain ⟨qs, _, rfl, hqs, h₅⟩ := List.map_eq_append_iff.mp h₄
    obtain ⟨_, _, rfl, h₆⟩ := exists_placed h₅
    obtain rfl := List.map_eq_nil_iff.mp h₆
    obtain ⟨hread, hrecognize⟩ := readFlags_of_tokens flags hps
    refine congrArg (RuleLine.rule <$> ·) (readRule_eq_ok_iff.mpr
      ⟨_, _, _, _, hread, readConditions_complete hexpr hqs, hrecognize, ?_⟩)
    simp [Level.conditions]

/-- What is read as a rule after its name and a `;` makes a line of the grammar. -/
theorem line_of_readRule {name : String} {rule : Rule}
    (h : readRule stop line name tokens = .ok rule) :
    Line line (.word name :: .mark .semi :: tokens.map Placed.token) (.rule rule) := by
  obtain ⟨named, rest, level, flags, hnamed, hlevel, hflags, rfl⟩ := readRule_eq_ok_iff.mp h
  rcases readOptionalFlags_sound hnamed with ⟨rfl, rfl, rfl⟩ | ⟨hnodup, htokens⟩
  · cases hlevel
    cases hflags
    exact .name name
  · obtain rfl := (recognizeFlags_eq_ok_iff hnodup).mp hflags
    rw [htokens, ← flagsTokens_eq]
    rcases optionalExpr_of_readConditions hlevel with ⟨rfl, rfl⟩ | ⟨ts, hts, hexpr⟩
    · exact .flags name flags
    · rw [hts]
      have hline : Line line _ _ := .conditions name flags hexpr
      simpa using hline

/-- Whatever is read of a line is what the grammar derives from it. -/
theorem readRuleTokens_sound (h : readRuleTokens stop line tokens = .ok value) :
    Line line (tokens.map Placed.token) value := by
  unfold readRuleTokens at h
  split at h
  · cases h
    exact .blank
  · split at h
    · next name rest =>
      obtain ⟨hend, h⟩ := Except.seq_eq_ok_iff.mp h
      cases h
      obtain rfl := eq_nil_of_endOfLine hend
      exact .goal name
    · cases h
  · split at h
    · obtain ⟨rule, hrule, rfl⟩ := Except.map_eq_ok_iff.mp h
      exact line_of_readRule hrule
    · cases h
  · cases h

/-- The automaton that takes the tokens of a line one after the other gives a value exactly if
the grammar derives the tokens, and it is the value that the grammar gives them.  The reader of
lines is this automaton. -/
theorem run_eq_ok_iff_line (stop line : Nat) (tokens : List Placed) (value : RuleLine) :
    (LineReader.run stop line tokens = .ok value ↔
        Line line (tokens.map Placed.token) value) ∧
      LineReader.run stop line tokens = readRuleTokens stop line tokens := by
  have hrun := LineReader.run_eq_readRuleTokens stop line tokens
  refine ⟨?_, hrun⟩
  rw [hrun]
  exact ⟨readRuleTokens_sound, readRuleTokens_complete⟩

end Reachability.Sheet
