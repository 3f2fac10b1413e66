import Reachability.Rule.Basic
import Reachability.Sheet.Logic
import Reachability.Sheet.Rewards

/-!
# Sheet — a line of the rule sheet

A line is blank, marks the end of a goal (`#name`), or states a rule
(`name;flags;conditions;`, where later parts may be left out).
-/

namespace Reachability.Sheet

/-- What a line of the rule sheet states. -/
inductive RuleLine where
  | blank
  | goal (name : String)
  | rule (rule : Rule)

/-- The flags of a line as they are named there. -/
abbrev NamedFlags := List (String × Option Argument)

section
variable (stop : Nat)

/-- Reads flags where one has to stand, up to the `;` after the last; `seen` are those before. -/
def readFlags (seen : NamedFlags) : List Placed → Except Fault (NamedFlags × List Placed)
  | ⟨column, .word flag⟩ :: rest =>
    if seen.any (·.1 == flag) then .error (.duplicateFlag (column + 1) flag)
    else
      match rest with
      | ⟨_, .mark .semi⟩ :: rest => .ok (seen ++ [(flag, none)], rest)
      | ⟨_, .mark .bar⟩ :: rest => readFlags (seen ++ [(flag, none)]) rest
      | ⟨_, .mark .opening⟩ :: rest =>
        match rest with
        | ⟨column, token⟩ :: rest =>
          match Argument.ofToken? token with
          | some argument =>
            match rest with
            | ⟨_, .mark .closing⟩ :: rest =>
              match rest with
              | ⟨_, .mark .semi⟩ :: rest => .ok (seen ++ [(flag, some argument)], rest)
              | ⟨_, .mark .bar⟩ :: rest => readFlags (seen ++ [(flag, some argument)]) rest
              | _ => .error (misplaced stop rest .afterFlagArgument)
            | _ => .error (misplaced stop rest .closing)
          | none => .error (.unexpected (column + 1) (some token) .argument)
        | [] => .error (misplaced stop [] .argument)
      | _ => .error (misplaced stop rest .afterFlag)
  | tokens => .error (misplaced stop tokens .flag)

/-- Reads the flags of a line, which may be left out. -/
def readOptionalFlags (tokens : List Placed) : Except Fault (NamedFlags × List Placed) :=
  match tokens with
  | [] => .ok ([], [])
  | ⟨_, .mark .semi⟩ :: rest => .ok ([], rest)
  | ⟨_, .word _⟩ :: _ => readFlags stop [] tokens
  | _ => .error (misplaced stop tokens .flagOrSemi)

/-- The flags that `named` name; the first name outside the vocabulary is a fault. -/
def recognizeFlags (rule : String) (named : NamedFlags) : Except Fault Flags :=
  named.foldlM
    (fun flags entry =>
      match Flag.ofName? entry.1 with
      | some flag => .ok (flags.insert flag entry.2)
      | none => .error (.unrecognizedFlag rule entry.1))
    ∅

/-- Reads what follows the `;` after the name of a rule. -/
def readRule (line : Nat) (name : String) (tokens : List Placed) : Except Fault Rule := do
  let (named, rest) ← readOptionalFlags stop tokens
  let level ← readConditions stop rest
  let flags ← recognizeFlags name named
  return { name, flags, operator := level.operator, conditions := level.conditions,
           line := UInt64.ofNat line }

/-- Reads the tokens of a line. -/
def readRuleTokens (line : Nat) (tokens : List Placed) : Except Fault RuleLine :=
  match tokens with
  | [] => .ok .blank
  | ⟨_, .mark .hash⟩ :: rest =>
    match rest with
    | ⟨_, .word name⟩ :: rest => do
      endOfLine stop rest
      return .goal name
    | _ => .error (misplaced stop rest .goal)
  | ⟨_, .word name⟩ :: rest =>
    match rest with
    | ⟨_, .mark .semi⟩ :: rest => RuleLine.rule <$> readRule stop line name rest
    | _ => .error (misplaced stop rest .semi)
  | _ => .error (misplaced stop tokens .nameOrHash)

end

/-- Reads a line of the rule sheet. -/
def readRuleLine (line : Nat) (text : List Char) : Except Fault RuleLine :=
  let tokens := Token.scan text
  readRuleTokens (endColumn tokens) line tokens

end Reachability.Sheet
