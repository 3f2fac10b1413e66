import Reachability.Reward
import Reachability.Sheet.Place
import Reachability.Text.Lines
import Reachability.Token.Scan

/-!
# Sheet — the reward sheet

A line is blank, starts a label (`#name`), or states a reward of the last label (`name;flag;`).
-/

namespace Reachability

/-- What a line of the reward sheet states. -/
inductive Sheet.RewardLine where
  | blank
  | label (name : String)
  | reward (name flag : String)
  deriving DecidableEq, Repr

/-- A reward sheet. -/
structure RewardSheet where
  labels : List Label := []
  rewards : List Reward := []
  deriving DecidableEq, Repr

namespace Sheet

/-- Reads the tokens of a line; `used` are the names of the labels above it. -/
def readRewardTokens (stop : Nat) (used : List String) (tokens : List Placed) :
    Except Fault RewardLine :=
  match tokens with
  | [] => .ok .blank
  | ⟨_, .mark .hash⟩ :: rest =>
    match rest with
    | ⟨column, .word name⟩ :: rest =>
      if used.contains name then .error (.duplicateLabel (column + 1) name)
      else do
        endOfLine stop rest
        return .label name
    | _ => .error (misplaced stop rest .name)
  | ⟨_, .word name⟩ :: rest =>
    match rest with
    | ⟨_, .mark .semi⟩ :: rest =>
      match rest with
      | ⟨_, .word flag⟩ :: rest =>
        match rest with
        | ⟨_, .mark .semi⟩ :: rest => do
          endOfLine stop rest
          return .reward name flag
        | _ => .error (misplaced stop rest .semi)
      | _ => .error (misplaced stop rest .flag)
    | _ => .error (misplaced stop rest .semi)
  | _ => .error (misplaced stop tokens .nameOrHash)

end Sheet

namespace RewardSheet
open Sheet

/-- The labels with `reward` listed under the last of them, if there is one. -/
def listUnderLast (reward : String) : List Label → List Label
  | [] => []
  | [label] => [{ label with rewards := label.rewards ++ [reward] }]
  | label :: rest => label :: listUnderLast reward rest

/-- The sheet with what its next line states. -/
def extend (sheet : RewardSheet) (line : Nat) : RewardLine → Except Fault RewardSheet
  | .blank => .ok sheet
  | .label name => .ok { sheet with labels := sheet.labels ++ [⟨name, []⟩] }
  | .reward name flag =>
    let name := rewardTitle ++ name
    if sheet.rewards.any (·.name == name) then .error (.duplicateReward name)
    else if sheet.labels.isEmpty then .error (.unlabeledReward name)
    else .ok
      { labels := listUnderLast name sheet.labels
        rewards := sheet.rewards ++ [⟨name, flag, UInt64.ofNat line⟩] }

/-- The sheet with its next line read. -/
def addLine (sheet : RewardSheet) (line : Nat) (text : List Char) : Except Fault RewardSheet := do
  let tokens := Token.scan text
  sheet.extend line
    (← readRewardTokens (endColumn tokens) (sheet.labels.map Label.name) tokens)

/-- The sheet with more lines read, the first of which has the number `line`. -/
def addLines (sheet : RewardSheet) (line : Nat) :
    List (List Char) → Except SheetError RewardSheet
  | [] => .ok sheet
  | text :: rest =>
    match sheet.addLine line text with
    | .ok sheet => sheet.addLines (line + 1) rest
    | .error fault => .error ⟨.rewards, line, fault⟩

/-- Reads a reward sheet. -/
def parse (text : String) : Except SheetError RewardSheet :=
  addLines {} 1 (Text.lines text.toList)

end RewardSheet

end Reachability
