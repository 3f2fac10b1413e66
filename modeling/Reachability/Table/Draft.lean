import Reachability.Table.Compile

/-!
# Table — tables made piece by piece

A draft collects rules, goals, labels and rewards in the order in which they are given.  A goal
spans the rules given before it, and a reward belongs to the last label.
-/

namespace Reachability

/-- The sheets of a table in the making. -/
structure Draft where
  rules : RuleSheet := {}
  rewards : RewardSheet := {}

namespace Draft

/-- The draft with one more rule. -/
def addRule (draft : Draft) (rule : Rule) : Draft :=
  { draft with rules := { draft.rules with rules := draft.rules.rules ++ [rule] } }

/-- The draft with a goal over all rules so far. -/
def addGoal (draft : Draft) (name : String) : Draft :=
  { draft with rules := { draft.rules with
      goals := draft.rules.goals ++ [⟨name, draft.rules.rules.length, 0⟩] } }

/-- The draft with a new label. -/
def addLabel (draft : Draft) (name : String) : Draft :=
  { draft with rewards := { draft.rewards with labels := draft.rewards.labels ++ [⟨name, []⟩] } }

/-- The draft with one more reward, listed under the last label if there is one. -/
def addReward (draft : Draft) (name flag : String) : Draft :=
  let name := rewardTitle ++ name
  { draft with rewards :=
      { labels := RewardSheet.listUnderLast name draft.rewards.labels
        rewards := draft.rewards.rewards ++ [⟨name, flag, 0⟩] } }

/-- One thing given to a draft. -/
inductive Step where
  | rule (rule : Rule)
  | goal (name : String)
  | label (name : String)
  | reward (name flag : String)

/-- The draft with one more thing. -/
def add (draft : Draft) : Step → Draft
  | .rule rule => draft.addRule rule
  | .goal name => draft.addGoal name
  | .label name => draft.addLabel name
  | .reward name flag => draft.addReward name flag

/-- The draft of some things in order. -/
def ofSteps (steps : List Step) : Draft := steps.foldl add {}

/-- Compiles a draft. -/
def compile (draft : Draft) : Except TableError Table := Table.compile draft.rules draft.rewards

end Draft

end Reachability
