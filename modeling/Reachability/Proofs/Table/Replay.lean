import Mathlib
import Reachability.Proofs.Outcome
import Reachability.Proofs.Sheet.Rewards
import Reachability.Proofs.Sheet.Rules
import Reachability.Table.Draft
import Reachability.Table.Sheets

/-!
# Table — sheets given to a draft

What two texts state can be given to a draft piece by piece: the rules with each goal where it
stands among them, and the labels with each reward under its label (`RuleSheet.steps`,
`RewardSheet.steps`).  However the pieces of the two are mixed, the draft compiles to the table of
the texts, or fails for the same reason (`Table.ofTexts_replayed`).  Only the lines of rewards are
lost, as a draft has none.

A draft and a reader of sheets each count rules and keep a last label.  One lemma for each sheet
says that they keep in step: with one more line, the sheet has the steps it had and those of the
line, and the draft of these is the sheet that was read.
-/

namespace Reachability

/-! ### The steps of a sheet -/

open Draft (Step)

namespace RuleSheet

/-- The goals that span `count` rules. -/
def goalSteps (goals : List GoalMarker) (count : Nat) : List Step :=
  (goals.filter (·.stop == count)).map (Step.goal ·.name)

/-- Rules that `count` others stand before, and the goals from there on. -/
def stepsFrom (goals : List GoalMarker) (count : Nat) : List Rule → List Step
  | [] => goalSteps goals count
  | rule :: rest => goalSteps goals count ++ .rule rule :: stepsFrom goals (count + 1) rest

/-- The rules of a sheet in order, each goal after the rules it spans. -/
def steps (sheet : RuleSheet) : List Step := stepsFrom sheet.goals 0 sheet.rules

end RuleSheet

/-- The name of a reward without what every such name starts with. -/
def Reward.baseName (reward : Reward) : String :=
  String.ofList (reward.name.toList.drop rewardTitle.length)

theorem Reward.baseName_title (base flag : String) (line : UInt64) :
    baseName ⟨rewardTitle ++ base, flag, line⟩ = base := by
  rw [baseName, String.toList_append, ← String.length_toList, List.drop_left, String.ofList_toList]

namespace RewardSheet

/-- The reward of a given name. -/
def rewardStep? (rewards : List Reward) (name : String) : Option Step :=
  (rewards.find? (·.name == name)).map fun reward => .reward reward.baseName reward.flag

/-- A label and the rewards that it lists. -/
def labelSteps (rewards : List Reward) (label : Label) : List Step :=
  .label label.name :: label.rewards.filterMap (rewardStep? rewards)

/-- The labels of a sheet in order, each with its rewards. -/
def steps (sheet : RewardSheet) : List Step := sheet.labels.flatMap (labelSteps sheet.rewards)

end RewardSheet

/-! ### Sheets without lines -/

/-- The goal as a draft has it. -/
def GoalMarker.unplaced (goal : GoalMarker) : GoalMarker := { goal with line := 0 }

/-- The reward as a draft has it. -/
def Reward.unplaced (reward : Reward) : Reward := { reward with line := 0 }

/-- The sheet as a draft has it. -/
def RuleSheet.unplaced (sheet : RuleSheet) : RuleSheet :=
  { sheet with goals := sheet.goals.map GoalMarker.unplaced }

/-- The sheet as a draft has it. -/
def RewardSheet.unplaced (sheet : RewardSheet) : RewardSheet :=
  { sheet with rewards := sheet.rewards.map Reward.unplaced }

/-- The table with the lines of its rewards unknown. -/
def Table.unplaced (table : Table) : Table :=
  { table with rewards := table.rewards.map Reward.unplaced }

/-! ### Drafts -/

namespace Draft

/-- Whether a step is one about the rule sheet. -/
def Step.onRules : Step → Bool
  | .rule _ | .goal _ => true
  | .label _ | .reward _ _ => false

theorem ofSteps_append_singleton (steps : List Step) (step : Step) :
    ofSteps (steps ++ [step]) = (ofSteps steps).add step := List.foldl_concat ..

/-- A part of a draft that the steps in `keep` change by what they find of it, and the others not at
all, comes from the steps in `keep`. -/
theorem ofSteps_filter {α : Type} (part : Draft → α) (keep : Step → Bool)
    (hkeep : ∀ {draft draft' : Draft}, part draft = part draft' → ∀ step,
      part (draft.add step) = part (draft'.add step))
    (hskip : ∀ draft {step}, keep step = false → part (draft.add step) = part draft)
    (steps : List Step) : part (ofSteps (steps.filter keep)) = part (ofSteps steps) := by
  -- the two drafts agree in the part only: the other steps are in one of them
  suffices hrun : ∀ {draft draft' : Draft}, part draft = part draft' →
      part ((steps.filter keep).foldl add draft) = part (steps.foldl add draft') from hrun rfl
  induction steps with
  | nil => exact id
  | cons step rest ih =>
    intro draft draft' h
    cases hstep : keep step with
    | true =>
      rw [List.filter_cons_of_pos hstep]
      exact ih (hkeep h step)
    | false =>
      rw [List.filter_cons_of_neg (by simp [hstep])]
      exact ih (h.trans (hskip draft' hstep).symm)

/-- The rules and goals of a draft come from the steps about them. -/
theorem rules_ofSteps_filter (steps : List Step) :
    (ofSteps (steps.filter Step.onRules)).rules = (ofSteps steps).rules := by
  refine ofSteps_filter Draft.rules _ (fun h step => ?_) (fun draft step hstep => ?_) steps
  · cases step <;> simp [add, addRule, addGoal, addLabel, addReward, h]
  · cases step with
    | rule _ | goal _ => cases hstep
    | label _ | reward _ _ => rfl

/-- The labels and rewards of a draft come from the other steps. -/
theorem rewards_ofSteps_filter (steps : List Step) :
    (ofSteps (steps.filter (!·.onRules))).rewards = (ofSteps steps).rewards := by
  refine ofSteps_filter Draft.rewards _ (fun h step => ?_) (fun draft step hstep => ?_) steps
  · cases step <;> simp [add, addRule, addGoal, addLabel, addReward, h]
  · cases step with
    | rule _ | goal _ => rfl
    | label _ | reward _ _ => cases hstep

end Draft

/-! ### Reading and replaying a rule sheet -/

namespace RuleSheet

theorem goalSteps_append (goals goals' : List GoalMarker) (count : Nat) :
    goalSteps (goals ++ goals') count = goalSteps goals count ++ goalSteps goals' count := by
  rw [goalSteps, List.filter_append, List.map_append]
  rfl

theorem goalSteps_eq_nil {goals : List GoalMarker} {count : Nat}
    (h : ∀ goal ∈ goals, goal.stop < count) : goalSteps goals count = [] := by
  rw [goalSteps, List.map_eq_nil_iff, List.filter_eq_nil_iff]
  exact fun goal hgoal => by simpa using Nat.ne_of_lt (h goal hgoal)

/-- One more rule comes after all goals so far. -/
theorem stepsFrom_append_rule {goals : List GoalMarker} {count : Nat} {rules : List Rule}
    (h : ∀ goal ∈ goals, goal.stop ≤ count + rules.length) (rule : Rule) :
    stepsFrom goals count (rules ++ [rule]) = stepsFrom goals count rules ++ [.rule rule] := by
  induction rules generalizing count with
  | nil =>
    have hnone : goalSteps goals (count + 1) = [] :=
      goalSteps_eq_nil fun goal hgoal => Nat.lt_succ_of_le (h goal hgoal)
    rw [List.nil_append, stepsFrom, stepsFrom, stepsFrom, hnone]
  | cons first rest ih =>
    have hrest : ∀ goal ∈ goals, goal.stop ≤ count + 1 + rest.length := fun goal hgoal => by
      have := h goal hgoal
      rw [List.length_cons] at this
      omega
    rw [List.cons_append, stepsFrom, stepsFrom, ih hrest, List.append_assoc, List.cons_append]

/-- One more goal over all rules comes after them. -/
theorem stepsFrom_append_goal {goals : List GoalMarker} {goal : GoalMarker} {count : Nat}
    {rules : List Rule} (h : goal.stop = count + rules.length) :
    stepsFrom (goals ++ [goal]) count rules = stepsFrom goals count rules ++ [.goal goal.name] := by
  induction rules generalizing count with
  | nil =>
    have hlast : goalSteps [goal] count = [.goal goal.name] := by
      rw [List.length_nil, Nat.add_zero] at h
      simp [goalSteps, h]
    rw [stepsFrom, stepsFrom, goalSteps_append, hlast]
  | cons first rest ih =>
    rw [List.length_cons] at h
    have hnone : goalSteps [goal] count = [] := by
      have : goal.stop ≠ count := by omega
      simp [goalSteps, this]
    rw [stepsFrom, stepsFrom, goalSteps_append, hnone, List.append_nil, ih (by omega),
      List.append_assoc, List.cons_append]

/-- The goals of the sheet span rules of the sheet, and the draft of its steps is the sheet. -/
structure Replayed (sheet : RuleSheet) : Prop where
  stops : ∀ goal ∈ sheet.goals, goal.stop ≤ sheet.rules.length
  rules : (Draft.ofSteps sheet.steps).rules = sheet.unplaced

/-- A line adds to a draft what it adds to the sheet. -/
theorem Replayed.extend {before after : RuleSheet} {line : Nat} {value : Sheet.RuleLine}
    (h : before.Replayed) (hafter : before.extend line value = .ok after) : after.Replayed := by
  cases value with
  | blank =>
    cases hafter
    exact h
  | goal name =>
    rw [RuleSheet.extend] at hafter
    split at hafter
    · cases hafter
    cases hafter
    constructor
    · rw [List.forall_mem_append, List.forall_mem_singleton]
      exact ⟨h.stops, Nat.le_refl _⟩
    · have hsteps : steps { before with
            goals := before.goals ++ [⟨name, before.rules.length, UInt64.ofNat line⟩] } =
          before.steps ++ [.goal name] := stepsFrom_append_goal (Nat.zero_add _).symm
      rw [hsteps, Draft.ofSteps_append_singleton, Draft.add, Draft.addGoal, h.rules, unplaced,
        unplaced, List.map_append]
      rfl
  | rule rule =>
    rw [RuleSheet.extend] at hafter
    split at hafter
    · cases hafter
    cases hafter
    constructor
    · intro goal hgoal
      exact Nat.le_trans (h.stops goal hgoal) (by simp)
    · have hsteps : steps { before with rules := before.rules ++ [rule] } =
          before.steps ++ [.rule rule] := stepsFrom_append_rule (by simpa using h.stops) rule
      rw [hsteps, Draft.ofSteps_append_singleton, Draft.add, Draft.addRule, h.rules, unplaced,
        unplaced]

/-- The draft of the steps of a sheet that was read is that sheet. -/
theorem rules_ofSteps_of_parse {text : String} {sheet : RuleSheet} (h : parse text = .ok sheet) :
    (Draft.ofSteps sheet.steps).rules = sheet.unplaced := by
  refine Replayed.rules (parse_induct (motive := Replayed) ?_ ⟨nofun, rfl⟩ h)
  intro before line cs _ after hbefore hafter
  obtain ⟨value, -, hvalue⟩ := Except.bind_eq_ok_iff.mp hafter
  exact hbefore.extend hvalue

end RuleSheet

/-! ### Reading and replaying a reward sheet -/

namespace RewardSheet

/-- A reward of the sheet stays the one of its name with one more reward. -/
theorem rewardStep?_append_of_mem {rewards : List Reward} {name : String}
    (h : name ∈ rewards.map Reward.name) (reward : Reward) :
    rewardStep? (rewards ++ [reward]) name = rewardStep? rewards name := by
  obtain ⟨found, hfound⟩ : ∃ found, rewards.find? (·.name == name) = some found := by
    rw [← Option.isSome_iff_exists, List.find?_isSome]
    simpa using h
  rw [rewardStep?, rewardStep?, List.find?_append, hfound]
  rfl

theorem rewardStep?_append_self {rewards : List Reward} {reward : Reward}
    (h : reward.name ∉ rewards.map Reward.name) :
    rewardStep? (rewards ++ [reward]) reward.name = some (.reward reward.baseName reward.flag) := by
  have hnone : rewards.find? (·.name == reward.name) = none := by
    rw [List.find?_eq_none]
    simpa using h
  rw [rewardStep?, List.find?_append, hnone, List.find?_singleton]
  simp

theorem labelSteps_append {rewards : List Reward} {label : Label}
    (h : ∀ name ∈ label.rewards, name ∈ rewards.map Reward.name) (reward : Reward) :
    labelSteps (rewards ++ [reward]) label = labelSteps rewards label := by
  rw [labelSteps, labelSteps,
    List.filterMap_congr fun name hname => rewardStep?_append_of_mem (h name hname) reward]

/-- One more reward under the last label comes after everything so far. -/
theorem steps_append_reward {labels : List Label} {last : Label} {rewards : List Reward}
    (reward : Reward)
    (hlisted : ∀ label ∈ labels ++ [last], ∀ name ∈ label.rewards, name ∈ rewards.map Reward.name)
    (hnew : reward.name ∉ rewards.map Reward.name) :
    steps { labels := labels ++ [{ last with rewards := last.rewards ++ [reward.name] }],
            rewards := rewards ++ [reward] } =
      steps { labels := labels ++ [last], rewards } ++ [.reward reward.baseName reward.flag] := by
  rw [List.forall_mem_append, List.forall_mem_singleton] at hlisted
  have hbefore : labels.flatMap (labelSteps (rewards ++ [reward])) =
      labels.flatMap (labelSteps rewards) :=
    List.flatMap_congr fun label hlabel => labelSteps_append (hlisted.1 label hlabel) reward
  have hlast : labelSteps (rewards ++ [reward])
        { last with rewards := last.rewards ++ [reward.name] } =
      labelSteps rewards last ++ [.reward reward.baseName reward.flag] := by
    have hown := labelSteps_append hlisted.2 reward
    rw [labelSteps] at hown ⊢
    rw [List.filterMap_append, ← List.cons_append, hown, List.filterMap_cons,
      rewardStep?_append_self hnew, List.filterMap_nil]
  rw [steps, steps, List.flatMap_append, List.flatMap_append, List.flatMap_singleton,
    List.flatMap_singleton, hbefore, hlast, List.append_assoc]

/-- The labels of the sheet list rewards of the sheet, and the draft of its steps is the sheet. -/
structure Replayed (sheet : RewardSheet) : Prop where
  listed : ∀ label ∈ sheet.labels, ∀ name ∈ label.rewards, name ∈ sheet.rewards.map Reward.name
  rewards : (Draft.ofSteps sheet.steps).rewards = sheet.unplaced

/-- A line adds to a draft what it adds to the sheet. -/
theorem Replayed.extend {before after : RewardSheet} {line : Nat} {value : Sheet.RewardLine}
    (h : before.Replayed) (hafter : before.extend line value = .ok after) : after.Replayed := by
  cases value with
  | blank =>
    cases hafter
    exact h
  | label name =>
    cases hafter
    constructor
    · rw [List.forall_mem_append, List.forall_mem_singleton]
      exact ⟨h.listed, nofun⟩
    · have hsteps : steps { before with labels := before.labels ++ [⟨name, []⟩] } =
          before.steps ++ [.label name] := List.flatMap_append
      rw [hsteps, Draft.ofSteps_append_singleton, Draft.add, Draft.addLabel, h.rewards]
      rfl
  | reward base flag =>
    obtain ⟨hnew, labels, last, hlabels, rfl⟩ := of_extend_reward hafter
    have hlisted := h.listed
    rw [hlabels] at hlisted
    constructor
    · rw [List.map_append]
      rw [List.forall_mem_append, List.forall_mem_singleton] at hlisted ⊢
      refine ⟨fun label hlabel name hname => ?_, ?_⟩
      · exact List.mem_append_left _ (hlisted.1 label hlabel name hname)
      · rw [List.forall_mem_append, List.forall_mem_singleton]
        exact ⟨fun name hname => List.mem_append_left _ (hlisted.2 name hname), by simp⟩
    · have hbefore : before = { labels := labels ++ [last], rewards := before.rewards } := by
        rw [← hlabels]
      have hsteps := steps_append_reward ⟨rewardTitle ++ base, flag, UInt64.ofNat line⟩ hlisted hnew
      rw [Reward.baseName_title, ← hbefore] at hsteps
      rw [hsteps, Draft.ofSteps_append_singleton, Draft.add, Draft.addReward, h.rewards, unplaced,
        unplaced, List.map_append, hlabels, listUnderLast_append_singleton]
      rfl

/-- The draft of the steps of a sheet that was read is that sheet. -/
theorem rewards_ofSteps_of_parse {text : String} {sheet : RewardSheet}
    (h : parse text = .ok sheet) : (Draft.ofSteps sheet.steps).rewards = sheet.unplaced :=
  Replayed.rewards (parse_induct (motive := Replayed)
    (fun _ _ _ _ hbefore hafter => hbefore.extend hafter) ⟨nofun, rfl⟩ h)

end RewardSheet

/-! ### Compiling without lines -/

/-- Things whose keys stay the same repeat a key where they did. -/
theorem firstRepeat?_append_map {α : Type} (key : α → String) (f : α → α)
    (hf : ∀ a, key (f a) = key a) (seen : List String) (as bs : List α) :
    firstRepeat? key seen (as ++ bs.map f) = firstRepeat? key seen (as ++ bs) ∨
      ∃ b ∈ bs, firstRepeat? key seen (as ++ bs) = some b ∧
        firstRepeat? key seen (as ++ bs.map f) = some (f b) := by
  induction as generalizing seen with
  | cons a rest ih =>
    rw [List.cons_append, List.cons_append, firstRepeat?, firstRepeat?]
    split
    · exact .inl rfl
    · exact ih _
  | nil =>
    rw [List.nil_append, List.nil_append]
    induction bs generalizing seen with
    | nil => exact .inl rfl
    | cons b rest ih =>
      rw [List.map_cons, firstRepeat?, firstRepeat?, hf]
      split
      · exact .inr ⟨b, List.mem_cons_self, rfl, rfl⟩
      · rcases ih (key b :: seen) with hsame | ⟨b', hmem, hrepeat⟩
        · exact .inl hsame
        · exact .inr ⟨b', List.mem_cons_of_mem b hmem, hrepeat⟩

theorem checkGoals_unplaced (count : Nat) (seen : List String) (previous : Nat)
    (goals : List GoalMarker) : checkGoals count seen previous (goals.map GoalMarker.unplaced) =
      checkGoals count seen previous goals := by
  induction goals generalizing seen previous with
  | nil => rfl
  | cons goal rest ih =>
    rw [List.map_cons, checkGoals, checkGoals, ih]
    rfl

theorem map_name_unplaced (rewards : List Reward) :
    (rewards.map Reward.unplaced).map Reward.name = rewards.map Reward.name := List.map_map

theorem RewardSheet.check_unplaced (sheet : RewardSheet) : sheet.unplaced.check = sheet.check := by
  have hlabeled : sheet.unplaced.checkLabeled = sheet.checkLabeled := by
    have hfind (listed : List String) :
        (sheet.rewards.map Reward.unplaced).find? (!listed.contains ·.name) =
          (sheet.rewards.find? (!listed.contains ·.name)).map Reward.unplaced := List.find?_map ..
    simp only [checkLabeled, unplaced, hfind]
    cases sheet.rewards.find? (!(sheet.labels.flatMap Label.rewards).contains ·.name) <;> rfl
  rw [check, check, hlabeled, unplaced, map_name_unplaced]

/-- Two outcomes that are the same except for the lines of `rewards`. -/
inductive Table.SameUnplaced (rewards : List Reward) :
    Except TableError Table → Except TableError Table → Prop
  | ok (table : Table) : SameUnplaced rewards (.ok table) (.ok table.unplaced)
  | error (error : TableError) : SameUnplaced rewards (.error error) (.error error)
  | duplicate {reward : Reward} : reward ∈ rewards →
      SameUnplaced rewards (.error (.duplicateItem reward.name reward.line))
        (.error (.duplicateItem reward.name 0))

namespace Table

theorem SameUnplaced.bind {α : Type} {rewards : List Reward} {f g : α → Except TableError Table}
    (x : Except TableError α) (h : ∀ a, SameUnplaced rewards (f a) (g a)) :
    SameUnplaced rewards (x >>= f) (x >>= g) := by
  cases x with
  | ok a => exact h a
  | error e => exact .error e

/-- Items are checked by their names, and the lines of rewards show in no other error. -/
theorem SameUnplaced.checkItems {rules : List Rule} {rewards : List Reward}
    {f g : Unit → Except TableError Table} (h : SameUnplaced rewards (f ()) (g ())) :
    SameUnplaced rewards (checkItems rules rewards >>= f)
      (checkItems rules (rewards.map Reward.unplaced) >>= g) := by
  have hclaimed : claimedItems rules (rewards.map Reward.unplaced) =
      rules.filterMap (fun rule => rule.itemName?.map (·, rule.line)) ++
        (rewards.map fun reward => (reward.name, reward.line)).map fun item => (item.1, 0) := by
    rw [claimedItems, List.map_map, List.map_map]
    rfl
  unfold Reachability.checkItems
  rw [hclaimed]
  rcases firstRepeat?_append_map Prod.fst (fun item : String × UInt64 => (item.1, 0))
    (fun _ => rfl) [] (rules.filterMap fun rule => rule.itemName?.map (·, rule.line))
    (rewards.map fun reward => (reward.name, reward.line)) with hsame | ⟨item, hmem, hitem, hitem'⟩
  · rw [hsame, ← claimedItems]
    cases firstRepeat? Prod.fst [] (claimedItems rules rewards) with
    | none => exact h
    | some item => exact .error _
  · obtain ⟨reward, hreward, rfl⟩ := List.mem_map.mp hmem
    rw [claimedItems, hitem, hitem']
    exact .duplicate hreward

/-- Sheets without lines compile to the same table without lines, or fail for the same reason. -/
theorem compile_unplaced (sheet : RuleSheet) (rewards : RewardSheet) :
    SameUnplaced rewards.rewards (compile sheet rewards)
      (compile sheet.unplaced rewards.unplaced) := by
  have hnames : (sheet.goals.map GoalMarker.unplaced).map GoalMarker.name =
      sheet.goals.map GoalMarker.name := List.map_map
  have hgoals (entries : List Entry) :
      (sheet.goals.map GoalMarker.unplaced).map (GoalMarker.goal sheet.rules entries) =
        sheet.goals.map (GoalMarker.goal sheet.rules entries) := List.map_map
  unfold compile
  rw [RewardSheet.check_unplaced]
  simp only [RuleSheet.unplaced, checkGoals_unplaced, hnames, hgoals, RewardSheet.unplaced]
  -- no check but that of items, and nothing but the rewards of the table, shows a line of a reward
  refine .bind _ fun _ => .bind _ fun _ => .bind _ fun _ => .bind _ fun blocks => .checkItems ?_
  exact .bind _ fun _ => .bind _ fun _ => .bind _ fun _ => .ok _

/-- However the entries of two sheets that were read from texts are mixed, the draft of them
compiles to the table of the texts without the lines of rewards, or fails for the same reason,
except that the line of a reward whose name is taken is unknown. -/
theorem ofTexts_replayed {rules rewards : String} {sheet : RuleSheet} {rewardSheet : RewardSheet}
    (hrules : RuleSheet.parse rules = .ok sheet)
    (hrewards : RewardSheet.parse rewards = .ok rewardSheet) {steps : List Step}
    (hruleSteps : steps.filter Step.onRules = sheet.steps)
    (hrewardSteps : steps.filter (!·.onRules) = rewardSheet.steps) :
    (∃ table, ofTexts rules rewards = .ok table ∧
        (Draft.ofSteps steps).compile = .ok table.unplaced) ∨
      (∃ error, ofTexts rules rewards = .error (.table error) ∧
        (Draft.ofSteps steps).compile = .error error) ∨
      ∃ reward ∈ rewardSheet.rewards,
        ofTexts rules rewards = .error (.table (.duplicateItem reward.name reward.line)) ∧
          (Draft.ofSteps steps).compile = .error (.duplicateItem reward.name 0) := by
  have hdraft : (Draft.ofSteps steps).compile = compile sheet.unplaced rewardSheet.unplaced := by
    rw [Draft.compile, ← Draft.rules_ofSteps_filter, ← Draft.rewards_ofSteps_filter, hruleSteps,
      hrewardSteps, RuleSheet.rules_ofSteps_of_parse hrules,
      RewardSheet.rewards_ofSteps_of_parse hrewards]
  have hok {table : Table} (h : compile sheet rewardSheet = .ok table) :
      ofTexts rules rewards = .ok table := by
    simp only [ofTexts, hrules, hrewards, h]
  have herror {error : TableError} (h : compile sheet rewardSheet = .error error) :
      ofTexts rules rewards = .error (.table error) := by
    simp only [ofTexts, hrules, hrewards, h]
  have hsame := compile_unplaced sheet rewardSheet
  rw [hdraft]
  generalize hmade : compile sheet rewardSheet = made at hsame
  generalize compile sheet.unplaced rewardSheet.unplaced = made' at hsame ⊢
  cases hsame with
  | ok table => exact .inl ⟨table, hok hmade, rfl⟩
  | error error => exact .inr (.inl ⟨error, herror hmade, rfl⟩)
  | duplicate hreward => exact .inr (.inr ⟨_, hreward, herror hmade, rfl⟩)

/-- An item. -/
def woodRule : Rule where
  name := "Wood"
  flags := .ofList [(.item, none)]
  line := 1

/-- A place that asks for the item. -/
def benchRule : Rule where
  name := "Bench"
  flags := .ofList [(.location, none)]
  conditions := [.item true "Wood" 3]
  line := 3

/-- A goal over the item and one over both. -/
def benchSheet : RuleSheet where
  rules := [woodRule, benchRule]
  goals := [⟨"start", 1, 2⟩, ⟨"end", 2, 4⟩]

/-- One reward under each of two labels. -/
def lampSheet : RewardSheet where
  labels := [⟨"ordered", ["Reward: Torch"]⟩, ⟨"random", ["Reward: Lamp"]⟩]
  rewards := [⟨"Reward: Torch", "Normal", 2⟩, ⟨"Reward: Lamp", "Rare", 4⟩]

/-- The entries of both sheets, mixed. -/
def benchSteps : List Step :=
  [.label "ordered", .rule woodRule, .goal "start", .reward "Torch" "Normal", .label "random",
    .rule benchRule, .reward "Lamp" "Rare", .goal "end"]

theorem ofTexts_replayed_benchSheet :
    RuleSheet.parse "Wood;Item;\n#start\nBench;Location;Wood(3);\n#end" = .ok benchSheet ∧
      RewardSheet.parse "#ordered\nTorch;Normal;\n#random\nLamp;Rare;" = .ok lampSheet ∧
      benchSteps.filter Step.onRules = benchSheet.steps ∧
      benchSteps.filter (!·.onRules) = lampSheet.steps ∧
      ∃ table, ofTexts "Wood;Item;\n#start\nBench;Location;Wood(3);\n#end"
          "#ordered\nTorch;Normal;\n#random\nLamp;Rare;" = .ok table ∧
        (Draft.ofSteps benchSteps).compile = .ok table.unplaced := by
  have hrules : RuleSheet.parse "Wood;Item;\n#start\nBench;Location;Wood(3);\n#end" =
      .ok benchSheet := by cbv
  have hrewards : RewardSheet.parse "#ordered\nTorch;Normal;\n#random\nLamp;Rare;" =
      .ok lampSheet := by cbv
  have hruleSteps : benchSteps.filter Step.onRules = benchSheet.steps := rfl
  have hrewardSteps : benchSteps.filter (!·.onRules) = lampSheet.steps := by cbv
  refine ⟨hrules, hrewards, hruleSteps, hrewardSteps, ?_⟩
  have hcompiled : ∃ table, (Draft.ofSteps benchSteps).compile = .ok table := ⟨_, rfl⟩
  obtain ⟨made, hmade⟩ := hcompiled
  rcases ofTexts_replayed hrules hrewards hruleSteps hrewardSteps with
    h | ⟨error, -, herror⟩ | ⟨reward, -, -, herror⟩
  · exact h
  · cases hmade.symm.trans herror
  · cases hmade.symm.trans herror

end Table

end Reachability
