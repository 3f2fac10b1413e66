import Reachability.Proofs.Table.Descents

/-!
# Table — which sheets compile

The conditions under which a rule sheet and a reward sheet compile, stated of the sheets
themselves (`Table.Accepted`).  Each check of the compiler passes exactly if its condition holds,
so a table comes out exactly if all of them do (`Table.compile_succeeds_iff`).
-/

namespace Reachability

/-! ### Goals and labels -/

/-- A name that was not seen is different from the names after it if these were not seen either,
nor are they this name. -/
theorem nodup_disjoint_cons_iff {name : String} {names seen : List String} :
    (name :: names).Nodup ∧ (name :: names).Disjoint seen ↔
      name ∉ seen ∧ names.Nodup ∧ names.Disjoint (name :: seen) := by
  rw [List.nodup_cons, List.disjoint_cons_left, List.disjoint_cons_right]
  constructor
  · rintro ⟨⟨hname, hnodup⟩, hnew, hseen⟩
    exact ⟨hnew, hnodup, hname, hseen⟩
  · rintro ⟨hnew, hnodup, hname, hseen⟩
    exact ⟨⟨hname, hnodup⟩, hnew, hseen⟩

/-- Goals fit exactly if they have new and different names and end in order, from the end of the
goals before them on. -/
theorem goalsFit_iff {count previous : Nat} {seen : List String} {goals : List (String × Nat)} :
    GoalsFit count seen previous goals ↔
      ((goals.map Prod.fst).Nodup ∧ (goals.map Prod.fst).Disjoint seen) ∧
      (∀ goal ∈ goals, goal.2 ≤ count) ∧
      (goals.map Prod.snd).Pairwise (· ≤ ·) ∧ ∀ goal ∈ goals, previous ≤ goal.2 := by
  induction goals generalizing seen previous with
  | nil => simp [GoalsFit.nil]
  | cons goal rest ih =>
    have hcons : GoalsFit count seen previous (goal :: rest) ↔
        goal.1 ∉ seen ∧ previous ≤ goal.2 ∧ goal.2 ≤ count ∧
          GoalsFit count (goal.1 :: seen) goal.2 rest := by
      constructor
      · rintro (_ | ⟨hnew, hprevious, hcount, hrest⟩)
        exact ⟨hnew, hprevious, hcount, hrest⟩
      · rintro ⟨hnew, hprevious, hcount, hrest⟩
        exact .cons hnew hprevious hcount hrest
    rw [hcons, ih, List.map_cons, List.map_cons, nodup_disjoint_cons_iff, List.pairwise_cons,
      List.forall_mem_cons, List.forall_mem_cons, List.forall_mem_map]
    constructor
    · rintro ⟨hnew, hprevious, hcount, hnames, hstops, hordered, hafter⟩
      exact ⟨⟨hnew, hnames⟩, ⟨hcount, hstops⟩, ⟨hafter, hordered⟩, hprevious,
        fun g hg => hprevious.trans (hafter g hg)⟩
    · rintro ⟨⟨hnew, hnames⟩, ⟨hcount, hstops⟩, ⟨hafter, hordered⟩, hprevious, -⟩
      exact ⟨hnew, hprevious, hcount, hnames, hstops, hordered, hafter⟩

/-- The goals of a sheet pass their check exactly if they have different names and end in order,
within all rules. -/
theorem checkMarkers_eq_ok_iff {count : Nat} {goals : List GoalMarker} :
    checkGoals count [] 0 goals = .ok () ↔
      (goals.map GoalMarker.name).Nodup ∧ (∀ goal ∈ goals, goal.stop ≤ count) ∧
        (goals.map GoalMarker.stop).Pairwise (· ≤ ·) := by
  rw [checkGoals_eq_ok_iff, goalsFit_iff]
  simp [Function.comp_def]

/-- Labels fit exactly if they have new and different names and list declared rewards. -/
theorem labelsFit_iff {declared seen : List String} {labels : List Label} :
    LabelsFit declared seen labels ↔
      ((labels.map Label.name).Nodup ∧ (labels.map Label.name).Disjoint seen) ∧
      ∀ label ∈ labels, ∀ reward ∈ label.rewards, reward ∈ declared := by
  induction labels generalizing seen with
  | nil => simp [LabelsFit.nil]
  | cons label rest ih =>
    have hcons : LabelsFit declared seen (label :: rest) ↔
        label.name ∉ seen ∧ (∀ reward ∈ label.rewards, reward ∈ declared) ∧
          LabelsFit declared (label.name :: seen) rest := by
      constructor
      · rintro (_ | ⟨hnew, hrewards, hrest⟩)
        exact ⟨hnew, hrewards, hrest⟩
      · rintro ⟨hnew, hrewards, hrest⟩
        exact .cons hnew hrewards hrest
    rw [hcons, ih, List.map_cons, nodup_disjoint_cons_iff, List.forall_mem_cons]
    constructor
    · rintro ⟨hnew, hrewards, hnames, hrest⟩
      exact ⟨⟨hnew, hnames⟩, hrewards, hrest⟩
    · rintro ⟨⟨hnew, hnames⟩, hrewards, hrest⟩
      exact ⟨hnew, hrewards, hnames, hrest⟩

/-- The labels of a sheet pass their check exactly if they have different names and list declared
rewards. -/
theorem checkAllLabels_eq_ok_iff {declared : List String} {labels : List Label} :
    checkLabels declared [] labels = .ok () ↔
      (labels.map Label.name).Nodup ∧ ∀ label ∈ labels, ∀ reward ∈ label.rewards,
        reward ∈ declared := by
  rw [checkLabels_eq_ok_iff, labelsFit_iff]
  simp

theorem RewardSheet.checkLabeled_eq_ok_iff {sheet : RewardSheet} :
    sheet.checkLabeled = .ok () ↔
      ∀ reward ∈ sheet.rewards, ∃ label ∈ sheet.labels, reward.name ∈ label.rewards := by
  have hlisted : (∀ reward ∈ sheet.rewards, ∃ label ∈ sheet.labels, reward.name ∈ label.rewards) ↔
      sheet.rewards.find? (!(sheet.labels.flatMap Label.rewards).contains ·.name) = none := by
    simp [List.find?_eq_none]
  rw [hlisted, checkLabeled]
  cases sheet.rewards.find? _ <;> simp

/-! ### Items, flags and the goals of entries -/

theorem checkItems_eq_ok_iff {rules : List Rule} {rewards : List Reward} :
    checkItems rules rewards = .ok () ↔
      (rules.filterMap Rule.itemName? ++ rewards.map Reward.name).Nodup := by
  have hclaimed : (claimedItems rules rewards).map Prod.fst =
      rules.filterMap Rule.itemName? ++ rewards.map Reward.name := by
    simp [claimedItems, List.map_filterMap, Function.comp_def]
  have hnone : firstRepeat? Prod.fst [] (claimedItems rules rewards) = none ↔
      ((claimedItems rules rewards).map Prod.fst).Nodup := by
    simp [firstRepeat?_eq_none_iff]
  rw [← hclaimed, ← hnone, checkItems]
  cases firstRepeat? Prod.fst [] (claimedItems rules rewards) <;> simp

theorem Flags.contains_iff_get? {flags : Flags} {flag : Flag} :
    flags.contains flag = true ↔ ∃ argument, flags.get? flag = some argument := by
  simp [Flags.contains_iff, Flags.get?_eq_some_iff]

namespace Rule

/-- A rule has no bare flag exactly if each of its flags that have to carry a number does. -/
theorem bareFlag?_eq_none_iff {rule : Rule} :
    rule.bareFlag? = none ↔
      ∀ flag ∈ numericFlags, ∀ argument, rule.flags.get? flag = some argument →
        ∃ n, argument = some (.number n) := by
  rw [bareFlag?, List.find?_eq_none]
  refine forall₂_congr fun flag _ => ?_
  rw [Bool.and_eq_true, not_and, Flags.contains_iff_get?, forall_exists_index]
  refine forall₂_congr fun argument hargument => ?_
  rw [flagNumber?, hargument]
  rcases argument with _ | (_ | _) <;> simp [Argument.number?]

end Rule

theorem checkFlagValues_eq_ok_iff {rules : List Rule} :
    checkFlagValues rules = .ok () ↔ ∀ rule ∈ rules, rule.bareFlag? = none := by
  have hnone : (rules.findSome? fun rule => rule.bareFlag?.map (rule.name, ·)) = none ↔
      ∀ rule ∈ rules, rule.bareFlag? = none := by
    simp [List.findSome?_eq_none_iff]
  rw [← hnone, checkFlagValues]
  cases rules.findSome? fun rule => rule.bareFlag?.map (rule.name, ·) <;> simp

/-- The goal that a `Goal` flag with such an argument gives an entry called `name`. -/
def goalGiven (name : String) : Option Argument → String
  | some (.text goal) => goal
  | some (.number n) => toString n.toNat
  | none => goalSlug name

theorem Entry.goalName?_eq_some_iff {entry : Entry} {goal : String} :
    entry.goalName? = some goal ↔
      ∃ argument, entry.flags.get? .goal = some argument ∧
        goalGiven entry.name argument = goal := by
  rw [goalName?, Option.map_eq_some_iff]
  refine exists_congr fun argument => and_congr_right fun _ => ?_
  rcases argument with _ | (_ | _) <;> rfl

/-- The goals of the entries of rules are declared exactly if those of their slots are. -/
theorem checkGoalNames_eq_ok_iff {names goals : List String} {rules : List Rule}
    {blocks : List (List Entry)} (h : rules.mapM (Rule.entries names) = .ok blocks) :
    checkGoalNames goals blocks.flatten = .ok () ↔
      ∀ rule ∈ rules, ∀ slot ∈ rule.slots, ∀ argument,
        slot.flags.get? .goal = some argument → goalGiven slot.name argument ∈ goals := by
  have hnone : (blocks.flatten.findSome? fun entry =>
      (entry.goalName?.filter (!goals.contains ·)).map (entry.name, ·)) = none ↔
        ∀ entry ∈ blocks.flatten, ∀ goal, entry.goalName? = some goal → goal ∈ goals := by
    simp [List.findSome?_eq_none_iff, Option.filter_eq_none_iff]
  have hcheck : checkGoalNames goals blocks.flatten = .ok () ↔
      ∀ entry ∈ blocks.flatten, ∀ goal, entry.goalName? = some goal → goal ∈ goals := by
    rw [← hnone, checkGoalNames]
    cases blocks.flatten.findSome? fun entry =>
      (entry.goalName?.filter (!goals.contains ·)).map (entry.name, ·) <;> simp
  rw [hcheck]
  constructor
  · intro hentries rule hrule slot hslot argument hargument
    obtain ⟨entry, hentry, hmakes⟩ := exists_mem_of_slot h hrule hslot
    refine hentries entry hentry _ (Entry.goalName?_eq_some_iff.mpr ⟨argument, ?_, ?_⟩)
    · rw [hmakes.flags, hargument]
    · rw [hmakes.name]
  · intro hslots entry hentry goal hgoal
    obtain ⟨rule, hrule, slot, hmakes⟩ := exists_makes_of_mem h hentry
    obtain ⟨argument, hargument, rfl⟩ := Entry.goalName?_eq_some_iff.mp hgoal
    rw [hmakes.flags] at hargument
    rw [hmakes.name]
    exact hslots rule hrule slot hmakes.mem argument hargument

namespace Table

/-! ### All checks -/

/-- What a rule sheet and a reward sheet have to be like to compile. -/
structure Accepted (sheet : RuleSheet) (rewards : RewardSheet) : Prop where
  goalNames : (sheet.goals.map GoalMarker.name).Nodup
  goalStops : ∀ goal ∈ sheet.goals, goal.stop ≤ sheet.rules.length
  goalOrder : (sheet.goals.map GoalMarker.stop).Pairwise (· ≤ ·)
  labelNames : (rewards.labels.map Label.name).Nodup
  declared : ∀ label ∈ rewards.labels, ∀ name ∈ label.rewards,
    name ∈ rewards.rewards.map Reward.name
  labeled : ∀ reward ∈ rewards.rewards, ∃ label ∈ rewards.labels, reward.name ∈ label.rewards
  ruleNames : (entryNames sheet.rules).Nodup
  conditions : ∀ rule ∈ sheet.rules, ∀ c ∈ rule.conditions,
    Condition.Resolvable (entryNames sheet.rules) c
  itemNames : (sheet.rules.filterMap Rule.itemName? ++ rewards.rewards.map Reward.name).Nodup
  flagValues : ∀ rule ∈ sheet.rules, ∀ flag ∈ Rule.numericFlags, ∀ argument,
    rule.flags.get? flag = some argument → ∃ n, argument = some (.number n)
  entryGoals : ∀ rule ∈ sheet.rules, ∀ slot ∈ rule.slots, ∀ argument,
    slot.flags.get? .goal = some argument →
      goalGiven slot.name argument ∈ sheet.goals.map GoalMarker.name
  descents : ∀ name, ¬Relation.TransGen (Descends sheet.rules) name name

/-- A table comes out exactly if every check passes. -/
theorem exists_compile_iff {sheet : RuleSheet} {rewards : RewardSheet} :
    (∃ table, compile sheet rewards = .ok table) ↔
      checkGoals sheet.rules.length [] 0 sheet.goals = .ok () ∧
      checkLabels (rewards.rewards.map Reward.name) [] rewards.labels = .ok () ∧
      rewards.checkLabeled = .ok () ∧
      checkRuleNames (entryNames sheet.rules) = .ok () ∧
      ∃ blocks, sheet.rules.mapM (Rule.entries (entryNames sheet.rules)) = .ok blocks ∧
        checkItems sheet.rules rewards.rewards = .ok () ∧
        checkFlagValues sheet.rules = .ok () ∧
        checkGoalNames (sheet.goals.map GoalMarker.name) blocks.flatten = .ok () ∧
        checkDescents blocks.flatten (.ofRules (placeRules 0 sheet.rules)) = .ok () := by
  constructor
  · rintro ⟨table, h⟩
    obtain ⟨hgoals, h⟩ := Except.seq_eq_ok_iff.mp h
    obtain ⟨hrewards, h⟩ := Except.seq_eq_ok_iff.mp h
    obtain ⟨hlabels, hlabeled⟩ := Except.seq_eq_ok_iff.mp hrewards
    obtain ⟨hnames, h⟩ := Except.seq_eq_ok_iff.mp h
    obtain ⟨blocks, hblocks, h⟩ := Except.bind_eq_ok_iff.mp h
    obtain ⟨hitems, h⟩ := Except.seq_eq_ok_iff.mp h
    obtain ⟨hflags, h⟩ := Except.seq_eq_ok_iff.mp h
    obtain ⟨hentries, h⟩ := Except.seq_eq_ok_iff.mp h
    obtain ⟨hdescents, -⟩ := Except.seq_eq_ok_iff.mp h
    exact ⟨hgoals, hlabels, hlabeled, hnames, blocks, hblocks, hitems, hflags, hentries, hdescents⟩
  · rintro ⟨hgoals, hlabels, hlabeled, hnames, blocks, hblocks, hitems, hflags, hentries, hdescents⟩
    have hrewards : rewards.check = .ok () := Except.seq_eq_ok_iff.mpr ⟨hlabels, hlabeled⟩
    simp only [compile, hgoals, hrewards, hnames, hblocks, hitems, hflags, hentries, hdescents,
      bind, Except.bind]
    exact ⟨_, rfl⟩

/-- No item name is claimed twice by the rules and the rewards of a compiled table. -/
theorem nodup_itemNames {sheet : RuleSheet} {rewards : RewardSheet} {table : Table}
    (hcompile : compile sheet rewards = .ok table) :
    (sheet.rules.filterMap Rule.itemName? ++ rewards.rewards.map Reward.name).Nodup := by
  obtain ⟨-, -, -, -, blocks, -, hitems, -⟩ := exists_compile_iff.mp ⟨table, hcompile⟩
  exact checkItems_eq_ok_iff.mp hitems

/-- A rule sheet and a reward sheet compile exactly if they are accepted. -/
theorem compile_succeeds_iff (sheet : RuleSheet) (rewards : RewardSheet) :
    (∃ table, compile sheet rewards = .ok table) ↔ Accepted sheet rewards := by
  rw [exists_compile_iff, checkMarkers_eq_ok_iff, checkAllLabels_eq_ok_iff,
    RewardSheet.checkLabeled_eq_ok_iff, checkRuleNames_eq_ok_iff, checkItems_eq_ok_iff,
    checkFlagValues_eq_ok_iff]
  constructor
  · rintro ⟨⟨hgoals, hstops, horder⟩, ⟨hlabels, hdeclared⟩, hlabeled, hnames, blocks, hblocks,
      hitems, hflags, hentries, hdescents⟩
    constructor
    case goalNames => exact hgoals
    case goalStops => exact hstops
    case goalOrder => exact horder
    case labelNames => exact hlabels
    case declared => exact hdeclared
    case labeled => exact hlabeled
    case ruleNames => exact hnames
    case conditions =>
      intro rule hrule
      exact Rule.exists_entries_iff.mp
        (Except.exists_mapM_eq_ok_iff.mp ⟨blocks, hblocks⟩ rule hrule)
    case itemNames => exact hitems
    case flagValues => exact fun rule hrule => Rule.bareFlag?_eq_none_iff.mp (hflags rule hrule)
    case entryGoals => exact (checkGoalNames_eq_ok_iff hblocks).mp hentries
    case descents => exact (checkDescents_eq_ok_iff_acyclic hnames hblocks).mp hdescents
  · intro h
    obtain ⟨blocks, hblocks⟩ := Except.exists_mapM_eq_ok_iff.mpr fun rule hrule =>
      Rule.exists_entries_iff.mpr (h.conditions rule hrule)
    exact ⟨⟨h.goalNames, h.goalStops, h.goalOrder⟩, ⟨h.labelNames, h.declared⟩, h.labeled,
      h.ruleNames, blocks, hblocks, h.itemNames,
      fun rule hrule => Rule.bareFlag?_eq_none_iff.mpr (h.flagValues rule hrule),
      (checkGoalNames_eq_ok_iff hblocks).mpr h.entryGoals,
      (checkDescents_eq_ok_iff_acyclic h.ruleNames hblocks).mpr h.descents⟩

end Table

end Reachability
