import Reachability.Proofs.Sheet.Sound
import Reachability.Sheet.Automaton

/-!
# Sheet — the automaton reads what the readers read

The automaton keeps its place in a state where the readers of a line keep it in the call that is
being made.
-/

namespace Reachability.Sheet.LineReader

/-- The automaton between the conditions of a rule. -/
def amid (name : String) (flags : NamedFlags) (state : LineState) (outer : List OpenGroup)
    (level : Level) (sign : Bool) : LineReader :=
  { state, name := some name, flags, sign, level, outer }

/-- What a rule states once its conditions are read. -/
def conclude (line : Nat) (name : String) (flags : NamedFlags) (level : Level) :
    Except Fault RuleLine := do
  let flags ← recognizeFlags name flags
  return .rule { name, flags, operator := level.operator, conditions := level.conditions,
                 line := UInt64.ofNat line }

section
variable {stop line : Nat} {name : String} {flags : NamedFlags}

/-- After the `;` behind the conditions only the end of the line may follow. -/
theorem finishFrom_endOfLine (outer : List OpenGroup) (level : Level) (tokens : List Placed) :
    finishFrom stop line (amid name flags .endOfLine outer level true) tokens =
      (do endOfLine stop tokens; return level) >>= conclude line name flags := by
  cases tokens <;> rfl

/-- The readers of conditions and the automaton agree on `tokens`. -/
def Agree (stop line : Nat) (name : String) (flags : NamedFlags) (tokens : List Placed) : Prop :=
  (∀ outer level sign,
    finishFrom stop line (amid name flags .condition outer level sign) tokens =
      atCondition stop outer level sign tokens >>= conclude line name flags) ∧
  (∀ outer level,
    finishFrom stop line (amid name flags .afterCondition outer level true) tokens =
      afterCondition stop outer level tokens >>= conclude line name flags)

/-- The argument of a call is followed by the closing parenthesis and nothing else. -/
theorem finishFrom_argument {outer : List OpenGroup} {level : Level} {sign : Bool}
    {function : String} {a b c d : Nat} {token : Token} {argument : Argument}
    (hargument : Argument.ofToken? token = some argument) (rest : List Placed)
    (ih : Below (Agree stop line name flags) rest) :
    finishFrom stop line
        (amid name flags .functionArgumentEnd outer
          (level.add (.call sign function (some argument))) true) rest =
      atCondition stop outer level sign (⟨a, .mark .atSign⟩ :: ⟨b, .word function⟩ ::
          ⟨c, .mark .opening⟩ :: ⟨d, token⟩ :: rest) >>=
        conclude line name flags := by
  cases token with
  | mark => cases hargument
  | word | number =>
    cases hargument
    match rest, ih with
    | [], _ => rfl
    | ⟨_, .word _⟩ :: _, _ => rfl
    | ⟨_, .number _⟩ :: _, _ => rfl
    | ⟨_, .mark m⟩ :: rest, ih =>
      cases m with
      | closing => exact ih.rest.2 outer _
      | _ => rfl

/-- A function is called, with or without an argument. -/
theorem finishFrom_function {outer : List OpenGroup} {level : Level} {sign : Bool} {column : Nat}
    {rest : List Placed}
    (ih : Below (Agree stop line name flags) rest) :
    finishFrom stop line (amid name flags .function outer level sign) rest =
      atCondition stop outer level sign (⟨column, .mark .atSign⟩ :: rest) >>=
        conclude line name flags := by
  match rest, ih with
  | [], _ => rfl
  | ⟨_, .number _⟩ :: _, _ => rfl
  | ⟨_, .mark _⟩ :: _, _ => rfl
  | [⟨_, .word _⟩], _ => rfl
  | ⟨_, .word _⟩ :: ⟨_, .word _⟩ :: _, _ => rfl
  | ⟨_, .word _⟩ :: ⟨_, .number _⟩ :: _, _ => rfl
  | ⟨_, .word function⟩ :: ⟨c, .mark m⟩ :: rest, ih =>
    cases m with
    | hash | atSign | tilde => rfl
    | semi | amp | bar | closing =>
      exact ih.rest.2 outer (level.add (.call sign function none))
    | opening =>
      match rest, ih with
      | [], _ => rfl
      | ⟨_, .mark _⟩ :: _, _ => rfl
      | ⟨_, .word _⟩ :: rest, ih =>
        exact finishFrom_argument rfl rest ih.tail.tail.tail
      | ⟨_, .number _⟩ :: rest, ih =>
        exact finishFrom_argument rfl rest ih.tail.tail.tail

/-- Where a condition has to start. -/
theorem finishFrom_condition {outer : List OpenGroup} {level : Level} {sign : Bool}
    {tokens : List Placed}
    (ih : Below (Agree stop line name flags) tokens) :
    finishFrom stop line (amid name flags .condition outer level sign) tokens =
      atCondition stop outer level sign tokens >>= conclude line name flags := by
  match tokens, ih with
  | [], _ => rfl
  | ⟨_, .word _⟩ :: rest, ih => exact ih.rest.2 outer _
  | ⟨_, .number _⟩ :: _, _ => rfl
  | ⟨_, .mark m⟩ :: rest, ih =>
    cases m with
    | tilde => exact ih.rest.1 outer level (!sign)
    | opening => exact ih.rest.1 (⟨sign, level⟩ :: outer) {} true
    | hash =>
      match rest, ih with
      | [], _ => rfl
      | ⟨_, .word _⟩ :: rest, ih => exact ih.tail.rest.2 outer _
      | ⟨_, .number _⟩ :: _, _ => rfl
      | ⟨_, .mark _⟩ :: _, _ => rfl
    | atSign => exact finishFrom_function ih.tail
    | _ => rfl

/-- Two conditions are joined by an operator. -/
theorem finishFrom_join {outer : List OpenGroup} {level : Level} {column : Nat}
    {operator : Operator} {rest : List Placed} (ih : Agree stop line name flags rest) :
    (do
      let reader ← (amid name flags .afterCondition outer level true).join column operator
      finishFrom stop line reader rest) =
      (do
        let level ← level.join column operator
        atCondition stop outer level true rest) >>= conclude line name flags := by
  simp only [join, amid]
  cases level.join column operator with
  | error fault => rfl
  | ok level => exact ih.1 outer level true

/-- The quantity of an item is not zero. -/
theorem finishFrom_number {reader : LineReader} (h : reader.state = .quantity) {column : Nat}
    {n : UInt64} {rest : List Placed} :
    finishFrom stop line reader (⟨column, .number n⟩ :: rest) =
      if n = 0 then .error (.nonNaturalQuantity (column + 1) n)
      else finishFrom stop line (reader.setQuantity n) rest := by
  simp only [finishFrom, step, h]
  split <;> rfl

/-- An item gets its quantity. -/
theorem finishFrom_quantity {outer : List OpenGroup} {level : Level} {column : Nat}
    {rest : List Placed}
    (ih : Below (Agree stop line name flags) rest) :
    finishFrom stop line (amid name flags .afterCondition outer level true)
        (⟨column, .mark .opening⟩ :: rest) =
      afterCondition stop outer level (⟨column, .mark .opening⟩ :: rest) >>=
        conclude line name flags := by
  match level, rest, ih with
  | ⟨_, []⟩, _, _ => rfl
  | ⟨_, .location .. :: _⟩, _, _ => rfl
  | ⟨_, .call .. :: _⟩, _, _ => rfl
  | ⟨_, .group .. :: _⟩, _, _ => rfl
  | ⟨_, .item .. :: _⟩, [], _ => rfl
  | ⟨_, .item .. :: _⟩, ⟨_, .word _⟩ :: _, _ => rfl
  | ⟨_, .item .. :: _⟩, ⟨_, .mark _⟩ :: _, _ => rfl
  | ⟨_, .item .. :: _⟩, ⟨_, .number n⟩ :: rest, ih =>
    rw [afterCondition]
    refine (finishFrom_number rfl).trans ?_
    dsimp only
    split
    · rfl
    · match rest, ih with
      | [], _ => rfl
      | ⟨_, .word _⟩ :: _, _ => rfl
      | ⟨_, .number _⟩ :: _, _ => rfl
      | ⟨_, .mark m⟩ :: rest, ih =>
        cases m with
        | closing => exact ih.tail.rest.2 outer _
        | _ => rfl

/-- After a complete condition. -/
theorem finishFrom_afterCondition {outer : List OpenGroup} {level : Level} {tokens : List Placed}
    (ih : Below (Agree stop line name flags) tokens) :
    finishFrom stop line (amid name flags .afterCondition outer level true) tokens =
      afterCondition stop outer level tokens >>= conclude line name flags := by
  match tokens, ih with
  | [], _ => rfl
  | ⟨_, .word _⟩ :: _, _ => rfl
  | ⟨_, .number _⟩ :: _, _ => rfl
  | ⟨_, .mark m⟩ :: rest, ih =>
    have ihRest := ih.rest
    cases m with
    | semi =>
      cases outer with
      | nil => exact finishFrom_endOfLine [] level rest
      | cons => rfl
    | amp => exact finishFrom_join ihRest
    | bar => exact finishFrom_join ihRest
    | closing =>
      cases outer with
      | nil => rfl
      | cons opened outer => exact ihRest.2 outer _
    | opening => exact finishFrom_quantity ih.tail
    | _ => rfl

/-- The automaton reads conditions as the readers do. -/
theorem agree (tokens : List Placed) : Agree stop line name flags tokens :=
  Below.induct (fun _ ih => ⟨fun _ _ _ => finishFrom_condition ih,
    fun _ _ => finishFrom_afterCondition ih⟩) tokens

/-- Where the conditions of a rule start, if it has any. -/
theorem finishFrom_conditionOrSemi (tokens : List Placed) :
    finishFrom stop line (amid name flags .conditionOrSemi [] {} true) tokens =
      readConditions stop tokens >>= conclude line name flags := by
  match tokens with
  | [] => rfl
  | ⟨_, .word _⟩ :: rest => exact (agree rest).2 [] _
  | ⟨_, .number _⟩ :: _ => rfl
  | ⟨c, .mark m⟩ :: rest =>
    have hagree : Agree stop line name flags (⟨c, .mark m⟩ :: rest) := agree _
    cases m with
    | semi => exact finishFrom_endOfLine [] {} rest
    | hash | atSign | tilde | opening => exact hagree.1 [] {} true
    | amp | bar | closing => rfl

/-- What a rule states once its flags are read. -/
def concludeFlags (stop line : Nat) (name : String) :
    NamedFlags × List Placed → Except Fault RuleLine
  | (flags, rest) => readConditions stop rest >>= conclude line name flags

/-- A flag that was not given before is read. -/
theorem finishFrom_newFlag {flag : String} (h : ¬flags.any (·.1 == flag) = true) {column : Nat}
    {rest : List Placed} :
    finishFrom stop line (amid name flags .flag [] {} true) (⟨column, .word flag⟩ :: rest) =
      finishFrom stop line (amid name (flags ++ [(flag, none)]) .afterFlag [] {} true) rest := by
  have hstep : (amid name flags .flag [] {} true).step ⟨column, .word flag⟩ =
      .ok (amid name (flags ++ [(flag, none)]) .afterFlag [] {} true) := if_neg h
  rw [finishFrom, hstep]
  rfl

/-- The readers of flags and the automaton agree on `tokens`. -/
def AgreeFlags (stop line : Nat) (name : String) (tokens : List Placed) : Prop :=
  ∀ flags, finishFrom stop line (amid name flags .flag [] {} true) tokens =
    readFlags stop flags tokens >>= concludeFlags stop line name

/-- The last flag gets its argument. -/
theorem finishFrom_afterFlag {flag : String} {token : Token} {argument : Argument}
    (h : Argument.ofToken? token = some argument) {a b : Nat} {rest : List Placed} :
    finishFrom stop line (amid name (flags ++ [(flag, none)]) .afterFlag [] {} true)
        (⟨a, .mark .opening⟩ :: ⟨b, token⟩ :: rest) =
      finishFrom stop line
        (amid name (flags ++ [(flag, some argument)]) .flagArgumentEnd [] {} true) rest := by
  have hset : (amid name (flags ++ [(flag, none)]) .flagArgument [] {} true).setFlagArgument
      argument = amid name (flags ++ [(flag, some argument)]) .flagArgumentEnd [] {} true := by
    simp [setFlagArgument, amid]
  rw [← hset]
  cases token with
  | mark => cases h
  | word | number => cases h; rfl

/-- The argument of a flag is followed by the closing parenthesis and nothing else. -/
theorem finishFrom_flagArgument {flag : String} (hnew : ¬flags.any (·.1 == flag) = true)
    {token : Token} {argument : Argument} (hargument : Argument.ofToken? token = some argument)
    {a b c : Nat} (rest : List Placed)
    (ih : Below (AgreeFlags stop line name) rest) :
    finishFrom stop line
        (amid name (flags ++ [(flag, some argument)]) .flagArgumentEnd [] {} true) rest =
      readFlags stop flags (⟨a, .word flag⟩ :: ⟨b, .mark .opening⟩ :: ⟨c, token⟩ :: rest) >>=
        concludeFlags stop line name := by
  rw [readFlags.eq_def]
  dsimp only
  rw [if_neg hnew, hargument]
  rcases rest with _ | ⟨⟨_, _ | _ | m⟩, rest⟩
  · rfl
  · rfl
  · rfl
  · cases m with
    | closing =>
      rcases rest with _ | ⟨⟨_, _ | _ | m⟩, rest⟩
      · rfl
      · rfl
      · rfl
      · cases m with
        | semi => exact finishFrom_conditionOrSemi rest
        | bar => exact ih.tail.rest _
        | _ => rfl
    | _ => rfl

/-- After the name of a flag its argument, another flag or the `;` may follow. -/
theorem finishFrom_flagName {flag : String} (hnew : ¬flags.any (·.1 == flag) = true) {a : Nat}
    (rest : List Placed)
    (ih : Below (AgreeFlags stop line name) rest) :
    finishFrom stop line (amid name (flags ++ [(flag, none)]) .afterFlag [] {} true) rest =
      readFlags stop flags (⟨a, .word flag⟩ :: rest) >>= concludeFlags stop line name := by
  by_cases hargument : ∃ b c token argument rest',
    rest = ⟨b, .mark .opening⟩ :: ⟨c, token⟩ :: rest' ∧ Argument.ofToken? token = some argument
  · -- the argument, unless it is left out
    obtain ⟨b, c, token, argument, rest, rfl, hargument⟩ := hargument
    rw [finishFrom_afterFlag hargument]
    exact finishFrom_flagArgument hnew hargument rest ih.tail.tail
  · rw [readFlags.eq_def]
    dsimp only
    rw [if_neg hnew]
    rcases rest with _ | ⟨⟨b, _ | _ | m⟩, rest⟩
    · rfl
    · rfl
    · rfl
    · cases m with
      | semi => exact finishFrom_conditionOrSemi rest
      | bar => exact ih.rest _
      | opening =>
        rcases rest with _ | ⟨⟨c, word | number | mark⟩, rest⟩
        · rfl
        · exact (hargument ⟨b, c, .word word, .text word, rest, rfl, rfl⟩).elim
        · exact (hargument ⟨b, c, .number number, .number number, rest, rfl, rfl⟩).elim
        · rfl
      | _ => rfl

/-- The automaton reads flags as the reader does. -/
theorem agreeFlags (tokens : List Placed) : AgreeFlags stop line name tokens := by
  refine Below.induct (fun tokens ih flags => ?_) tokens
  rcases tokens with _ | ⟨⟨column, flag | _ | _⟩, rest⟩
  · rfl
  · by_cases h : flags.any (·.1 == flag) = true
    · have hstep : (amid name flags .flag [] {} true).step ⟨column, .word flag⟩ =
          .error (.duplicateFlag (column + 1) flag) := if_pos h
      have hread : readFlags stop flags (⟨column, .word flag⟩ :: rest) =
          .error (.duplicateFlag (column + 1) flag) := by
        rw [readFlags.eq_def]
        exact if_pos h
      rw [finishFrom, hstep, hread]
      rfl
    · rw [finishFrom_newFlag h]
      exact finishFrom_flagName h rest ih.tail
  · rfl
  · rfl

/-- Where the flags of a rule start, if it has any. -/
theorem finishFrom_flagOrSemi (tokens : List Placed) :
    finishFrom stop line (amid name [] .flagOrSemi [] {} true) tokens =
      readOptionalFlags stop tokens >>= concludeFlags stop line name := by
  match tokens with
  | [] => rfl
  | ⟨_, .number _⟩ :: _ => rfl
  | ⟨c, .word flag⟩ :: rest => exact agreeFlags (⟨c, .word flag⟩ :: rest) []
  | ⟨c, .mark m⟩ :: rest =>
    cases m with
    | semi => exact finishFrom_conditionOrSemi rest
    | _ => rfl

end

/-- The line of a rule, after its name. -/
theorem readRuleTokens_rule (stop line : Nat) {a b : Nat} (name : String) (rest : List Placed) :
    readRuleTokens stop line (⟨a, .word name⟩ :: ⟨b, .mark .semi⟩ :: rest) =
      readOptionalFlags stop rest >>= concludeFlags stop line name := by
  simp only [readRuleTokens, readRule, map_bind]
  rfl

/-- The automaton reads a line as the readers do. -/
theorem run_eq_readRuleTokens (stop line : Nat) (tokens : List Placed) :
    run stop line tokens = readRuleTokens stop line tokens := by
  match tokens with
  | [] => rfl
  | ⟨_, .number _⟩ :: _ => rfl
  | [⟨c, .word name⟩] => rfl
  | ⟨_, .word _⟩ :: ⟨_, .word _⟩ :: _ => rfl
  | ⟨_, .word _⟩ :: ⟨_, .number _⟩ :: _ => rfl
  | ⟨_, .word name⟩ :: ⟨_, .mark m⟩ :: rest =>
    cases m with
    | semi =>
      exact (finishFrom_flagOrSemi rest).trans (readRuleTokens_rule stop line name rest).symm
    | _ => rfl
  | ⟨_, .mark m⟩ :: rest =>
    cases m with
    | hash =>
      match rest with
      | [] => rfl
      | ⟨_, .number _⟩ :: _ => rfl
      | ⟨_, .mark _⟩ :: _ => rfl
      | [⟨_, .word _⟩] => rfl
      | ⟨_, .word _⟩ :: _ :: _ => rfl
    | _ => rfl

end Reachability.Sheet.LineReader
