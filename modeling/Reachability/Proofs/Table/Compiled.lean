import Reachability.Proofs.Table.Sound
import Reachability.Table.Compile

/-!
# Table — compiled tables are sound

Each check of the compiler and each index it makes gives one part of `Table.Sound`.
-/

namespace Reachability

namespace Condition

/-- Some conditions are resolved one by one. -/
theorem resolveAll_eq_mapM (names : List String) (owner : String) (cs : List Statement) :
    resolveAll names owner cs = cs.mapM (resolve names owner) := by
  induction cs with
  | nil => rfl
  | cons c rest ih => rw [resolveAll, ih, List.mapM_cons]

section
variable {names : List String} {owner name : String} {sign : Bool} {argument : Option Argument}
  {tree : Tree}

/-- The function that a call names is found if the call suits it. -/
theorem resolveCall_eq_ok_iff {function : Builtin} :
    resolveCall owner name argument = .ok function ↔
      function.name = name ∧ suits function argument = true := by
  unfold resolveCall
  constructor
  · intro h
    split at h
    · cases h
    · next found hfound =>
      split at h
      · next hsuits =>
        cases h
        exact ⟨Builtin.name_of_ofName? hfound, hsuits⟩
      · cases h
  · rintro ⟨rfl, hsuits⟩
    simp only [Builtin.ofName?_name, hsuits, if_true]

theorem resolve_item_eq_ok_iff {quantity : UInt64} :
    resolve names owner (.item sign name quantity) = .ok tree ↔
      ∃ index, names.idxOf? name = some index ∧ .item sign index quantity = tree := by
  rw [resolve]
  cases names.idxOf? name <;> simp

theorem resolve_location_eq_ok_iff :
    resolve names owner (.location sign name) = .ok tree ↔
      ∃ index, names.idxOf? name = some index ∧ .location sign index = tree := by
  rw [resolve]
  cases names.idxOf? name <;> simp

theorem resolve_call_eq_ok_iff :
    resolve names owner (.call sign name argument) = .ok tree ↔
      ∃ function : Builtin, (function.name = name ∧ suits function argument = true) ∧
        .call sign function argument = tree := by
  simp only [resolve, Except.bind_eq_ok_iff, resolveCall_eq_ok_iff, pure, Except.pure,
    Except.ok.injEq]

theorem resolve_group_eq_ok_iff {operator : Option Operator} {members : List Statement} :
    resolve names owner (.group sign operator members) = .ok tree ↔
      ∃ trees, members.mapM (resolve names owner) = .ok trees ∧
        .group sign operator trees = tree := by
  simp only [resolve, resolveAll_eq_mapM, Except.bind_eq_ok_iff, pure, Except.pure,
    Except.ok.injEq]

end

/-- A resolved condition is in range, its calls suit their functions, and its bare groups stand in
the condition. -/
structure Resolves (count : Nat) (c : Statement) (tree : Tree) : Prop where
  references : ∀ index ∈ tree.references, index < count
  calls : tree.Suited
  bareGroups : ∀ size, tree.BareGroup size → c.BareGroup size

/-- A resolved condition is as joined as the condition. -/
theorem Resolves.joined {count : Nat} {c : Statement} {tree : Tree} (h : Resolves count c tree)
    (hjoined : c.Joined) : tree.Joined :=
  joined_iff.mpr fun size hbare => joined_iff.mp hjoined size (h.bareGroups size hbare)

/-- The index of a name is below the number of names. -/
theorem lt_length_of_idxOf? {names : List String} {name : String} {index : Nat}
    (h : names.idxOf? name = some index) : index < names.length :=
  (List.idxOf?_eq_some_iff.mp h).1

theorem resolves_of_resolve {names : List String} {owner : String} {c : Statement} {tree : Tree}
    (h : resolve names owner c = .ok tree) : Resolves names.length c tree := by
  induction c using Condition.induct generalizing tree with
  | item sign name quantity =>
    obtain ⟨index, hindex, rfl⟩ := resolve_item_eq_ok_iff.mp h
    refine ⟨fun i hi => ?_, suited_item, fun _ hbare => (not_bareGroup_item hbare).elim⟩
    obtain rfl := List.mem_singleton.mp hi
    exact lt_length_of_idxOf? hindex
  | location sign name =>
    obtain ⟨index, hindex, rfl⟩ := resolve_location_eq_ok_iff.mp h
    refine ⟨fun i hi => ?_, suited_location, fun _ hbare => (not_bareGroup_location hbare).elim⟩
    obtain rfl := List.mem_singleton.mp hi
    exact lt_length_of_idxOf? hindex
  | call sign name argument =>
    obtain ⟨function, ⟨-, hsuits⟩, rfl⟩ := resolve_call_eq_ok_iff.mp h
    exact ⟨nofun, suited_call.mpr hsuits, fun _ hbare => (not_bareGroup_call hbare).elim⟩
  | group sign operator members ih =>
    obtain ⟨trees, htrees, rfl⟩ := resolve_group_eq_ok_iff.mp h
    -- each tree of the group is that of a member
    have hmember : ∀ t ∈ trees, ∃ c ∈ members, Resolves names.length c t := fun t ht => by
      obtain ⟨c, hc, h⟩ := Except.exists_of_mapM_eq_ok htrees ht
      exact ⟨c, hc, ih c hc h⟩
    refine ⟨fun i hi => ?_, suited_group.mpr fun t ht => ?_, fun size hbare => ?_⟩
    · obtain ⟨t, ht, hi⟩ := mem_references_group.mp hi
      obtain ⟨c, -, hc⟩ := hmember t ht
      exact hc.references i hi
    · obtain ⟨c, -, hc⟩ := hmember t ht
      exact hc.calls
    · rw [bareGroup_group, Except.length_of_mapM_eq_ok htrees] at hbare
      rw [bareGroup_group]
      refine hbare.imp_right fun ⟨t, ht, hbare⟩ => ?_
      obtain ⟨c, hc, hresolves⟩ := hmember t ht
      exact ⟨c, hc, hresolves.bareGroups size hbare⟩

end Condition

/-! ### The entries of rules -/

/-- The entries of a rule are its slots, each with the tree of its conditions. -/
theorem Rule.exists_tree_of_entries {names : List String} {rule : Rule} {entries : List Entry}
    (h : rule.entries names = .ok entries) :
    ∃ tree, Condition.resolve names rule.name (.group true rule.operator rule.conditions) =
        .ok tree ∧
      entries = rule.slots.map fun slot =>
        { name := slot.name, flags := slot.flags, tree, itemName := rule.itemName?,
          line := rule.line, copy := slot.copy } := by
  obtain ⟨members, hmembers, h⟩ := Except.bind_eq_ok_iff.mp h
  cases h
  refine ⟨.group true rule.operator members, ?_, rfl⟩
  rw [Condition.resolve, hmembers]
  rfl

/-- The entries of a rule have the names of its slots, and the tree of each is that of its
conditions. -/
theorem Rule.entries_spec {names : List String} {rule : Rule} {entries : List Entry}
    (h : rule.entries names = .ok entries) :
    entries.map Entry.name = rule.slots.map Slot.name ∧
      ∀ entry ∈ entries,
        Condition.Resolves names.length (.group true rule.operator rule.conditions) entry.tree := by
  obtain ⟨tree, hresolve, rfl⟩ := exists_tree_of_entries h
  refine ⟨by simp, fun entry hentry => ?_⟩
  obtain ⟨slot, -, rfl⟩ := List.mem_map.mp hentry
  exact Condition.resolves_of_resolve hresolve

/-- The entries of all rules have the names that the checks of names have seen. -/
theorem map_name_flatten_entries {names : List String} {rules : List Rule}
    {blocks : List (List Entry)} (h : rules.mapM (Rule.entries names) = .ok blocks) :
    blocks.flatten.map Entry.name = entryNames rules := by
  induction rules generalizing blocks with
  | nil =>
    cases h
    rfl
  | cons rule rules ih =>
    obtain ⟨block, blocks, hblock, hblocks, rfl⟩ := Except.mapM_cons_eq_ok_iff.mp h
    rw [List.flatten_cons, List.map_append, (Rule.entries_spec hblock).1, ih hblocks]
    rfl

/-- There are as many names as entries before the end of the rules. -/
theorem length_entryNames (rules : List Rule) :
    (entryNames rules).length = entriesBefore rules rules.length := by
  induction rules with
  | nil => rfl
  | cons rule rest ih =>
    rw [entryNames, List.flatMap_cons, List.length_append, List.length_map, Rule.length_slots,
      List.length_cons, entriesBefore, ← ih]
    rfl

/-! ### Goals, labels and names -/

@[simp] theorem entriesBefore_zero (rules : List Rule) : entriesBefore rules 0 = 0 := by
  cases rules <;> rfl

/-- More rules have more entries. -/
theorem entriesBefore_le {rules : List Rule} {a b : Nat} (h : a ≤ b) :
    entriesBefore rules a ≤ entriesBefore rules b := by
  induction rules generalizing a b with
  | nil =>
    cases a <;> exact Nat.zero_le _
  | cons rule rest ih =>
    cases a with
    | zero => exact Nat.zero_le _
    | succ a =>
      cases b with
      | zero => cases h
      | succ b => exact Nat.add_le_add_left (ih (Nat.le_of_succ_le_succ h)) _

theorem checkGoals_eq_ok_iff {count previous : Nat} {seen : List String}
    {goals : List GoalMarker} :
    checkGoals count seen previous goals = .ok () ↔
      GoalsFit count seen previous (goals.map fun goal => (goal.name, goal.stop)) := by
  induction goals generalizing seen previous with
  | nil => exact ⟨fun _ => .nil, fun _ => rfl⟩
  | cons goal rest ih =>
    unfold checkGoals
    constructor
    · intro h
      split at h
      · cases h
      · next hnew =>
        split at h
        · cases h
        · next hcount =>
          split at h
          · cases h
          · next hprevious =>
            rw [List.contains_iff_mem] at hnew
            exact .cons hnew (Nat.not_lt.mp hprevious) (Nat.not_lt.mp hcount) (ih.mp h)
    · rintro (_ | ⟨hnew, hprevious, hcount, hrest⟩)
      rw [← List.contains_iff_mem] at hnew
      rw [if_neg hnew, if_neg (Nat.not_lt.mpr hcount), if_neg (Nat.not_lt.mpr hprevious)]
      exact ih.mpr hrest

/-- Goals that end in order among rules end in order among their entries. -/
theorem GoalsFit.entriesBefore {rules : List Rule} {previous : Nat} {seen : List String}
    {goals : List (String × Nat)} (h : GoalsFit rules.length seen previous goals) :
    GoalsFit (entriesBefore rules rules.length) seen (entriesBefore rules previous)
      (goals.map fun goal => (goal.1, entriesBefore rules goal.2)) := by
  induction h with
  | nil => exact .nil
  | cons hnew hprevious hcount _ ih =>
    exact .cons hnew (entriesBefore_le hprevious) (entriesBefore_le hcount) ih

theorem checkLabels_eq_ok_iff {declared seen : List String} {labels : List Label} :
    checkLabels declared seen labels = .ok () ↔ LabelsFit declared seen labels := by
  induction labels generalizing seen with
  | nil => exact ⟨fun _ => .nil, fun _ => rfl⟩
  | cons label rest ih =>
    unfold checkLabels
    constructor
    · intro h
      split at h
      · cases h
      · next hnew =>
        split at h
        · cases h
        · next hrewards =>
          rw [List.contains_iff_mem] at hnew
          refine .cons hnew (fun reward hreward => ?_) (ih.mp h)
          simpa using List.find?_eq_none.mp hrewards reward hreward
    · rintro (_ | ⟨hnew, hrewards, hrest⟩)
      have hnone : label.rewards.find? (!declared.contains ·) = none := by
        rw [List.find?_eq_none]
        simpa using hrewards
      rw [← List.contains_iff_mem] at hnew
      rw [if_neg hnew, hnone]
      exact ih.mpr hrest

theorem checkRuleNames_eq_ok_iff {names : List String} :
    checkRuleNames names = .ok () ↔ names.Nodup := by
  have h : firstRepeat? id [] names = none ↔ names.Nodup := by
    simpa using @firstRepeat?_eq_none_iff _ id [] names
  rw [← h, checkRuleNames]
  cases firstRepeat? id [] names <;> simp

theorem checkDescents_eq_ok_iff {entries : List Entry} {capabilities : Capabilities} :
    checkDescents entries capabilities = .ok () ↔ cyclicNames? entries capabilities = none := by
  unfold checkDescents
  cases cyclicNames? entries capabilities <;> simp

/-! ### Capabilities -/

/-- A rule has an entry of its own, whatever copies it has. -/
theorem Rule.width_pos (rule : Rule) : 0 < rule.width := by
  unfold width
  split <;> decide

/-- A rule is placed after the entries of the rules before it. -/
theorem mem_placeRules_iff {rules : List Rule} {start index : Nat} {rule : Rule} :
    (rule, index) ∈ placeRules start rules ↔
      ∃ k, rules[k]? = some rule ∧ index = start + entriesBefore rules k := by
  induction rules generalizing start with
  | nil => simp [placeRules]
  | cons first rest ih =>
    rw [placeRules, List.mem_cons, ih]
    constructor
    · rintro (h | ⟨k, hk, rfl⟩)
      · cases h
        exact ⟨0, rfl, rfl⟩
      · exact ⟨k + 1, hk, Nat.add_assoc _ _ _⟩
    · rintro ⟨_ | k, hk, rfl⟩
      · cases hk
        exact .inl rfl
      · exact .inr ⟨k, hk, (Nat.add_assoc _ _ _).symm⟩

/-- Later rules are placed at greater indices. -/
theorem pairwise_placeRules (start : Nat) (rules : List Rule) :
    (placeRules start rules).Pairwise (·.2 < ·.2) := by
  induction rules generalizing start with
  | nil => exact .nil
  | cons first rest ih =>
    refine .cons ?_ (ih _)
    rintro ⟨rule, index⟩ h
    obtain ⟨k, -, rfl⟩ := mem_placeRules_iff.mp h
    have := first.width_pos
    dsimp only
    omega

/-- A rule starts before the end of all entries. -/
theorem lt_of_mem_placeRules {rules : List Rule} {start index : Nat} {rule : Rule}
    (h : (rule, index) ∈ placeRules start rules) :
    index < start + entriesBefore rules rules.length := by
  induction rules generalizing start with
  | nil => cases h
  | cons first rest ih =>
    have := first.width_pos
    rw [List.length_cons, entriesBefore]
    rcases List.mem_cons.mp h with h | h
    · cases h
      omega
    · have := ih h
      omega

namespace Capabilities

variable {placed : List (Rule × Nat)} {flag : Flag} {index : Nat}

/-- The rules of a flag are listed where they are placed. -/
theorem mem_flagged_iff : index ∈ flagged placed flag ↔
    ∃ rule, (rule, index) ∈ placed ∧ rule.flags.contains flag = true := by
  rw [flagged, List.mem_filterMap]
  constructor
  · rintro ⟨⟨rule, i⟩, hplaced, h⟩
    dsimp only at h
    split at h
    · next hflag =>
      cases h
      exact ⟨rule, hplaced, hflag⟩
    · cases h
  · rintro ⟨rule, hplaced, hflag⟩
    exact ⟨_, hplaced, if_pos hflag⟩

/-- The rules that have a number for a flag are listed where they are placed, with the number. -/
theorem mem_valued_iff {value : UInt64} : (index, value) ∈ valued placed flag ↔
    ∃ rule, (rule, index) ∈ placed ∧ rule.flagNumber? flag = some value := by
  rw [valued, List.mem_filterMap]
  constructor
  · rintro ⟨⟨rule, i⟩, hplaced, h⟩
    obtain ⟨n, hn, h⟩ := Option.map_eq_some_iff.mp h
    cases h
    exact ⟨rule, hplaced, hn⟩
  · rintro ⟨rule, hplaced, hvalue⟩
    exact ⟨_, hplaced, Option.map_eq_some_iff.mpr ⟨value, hvalue, rfl⟩⟩

theorem mem_map_fst_valued_iff : index ∈ (valued placed flag).map Prod.fst ↔
    ∃ rule value, (rule, index) ∈ placed ∧ rule.flagNumber? flag = some value := by
  rw [List.mem_map]
  constructor
  · rintro ⟨⟨i, value⟩, h, rfl⟩
    obtain ⟨rule, hplaced, hvalue⟩ := mem_valued_iff.mp h
    exact ⟨rule, value, hplaced, hvalue⟩
  · rintro ⟨rule, value, hplaced, hvalue⟩
    exact ⟨_, mem_valued_iff.mpr ⟨rule, hplaced, hvalue⟩, rfl⟩

end Capabilities

/-- The capabilities of rules name only where rules are placed. -/
theorem mem_of_mem_capabilityIndices {placed : List (Rule × Nat)} {index : Nat}
    (h : index ∈ Cache.capabilityIndices (Capabilities.ofRules placed)) :
    ∃ rule, (rule, index) ∈ placed := by
  simp only [Cache.capabilityIndices, Capabilities.ofRules, List.map_append, List.mem_append,
    Capabilities.mem_flagged_iff, Capabilities.mem_map_fst_valued_iff] at h
  rcases h with
    ((⟨rule, h, -⟩ | ⟨rule, h, -⟩) | ⟨rule, h, -⟩) | ((((((h | h) | h) | h) | h) | h) | h)
  · exact ⟨rule, h⟩
  · exact ⟨rule, h⟩
  · exact ⟨rule, h⟩
  all_goals
    obtain ⟨rule, -, h, -⟩ := h
    exact ⟨rule, h⟩

namespace Table

/-- What a compiled table is made of, and which checks it has passed. -/
theorem compile_spec {sheet : RuleSheet} {rewards : RewardSheet} {table : Table}
    (h : compile sheet rewards = .ok table) :
    ∃ blocks, sheet.rules.mapM (Rule.entries (entryNames sheet.rules)) = .ok blocks ∧
      table = { entries := blocks.flatten
                goals := sheet.goals.map (GoalMarker.goal sheet.rules blocks.flatten)
                labels := rewards.labels
                rewards := rewards.rewards
                capabilities := .ofRules (placeRules 0 sheet.rules) } ∧
      checkGoals sheet.rules.length [] 0 sheet.goals = .ok () ∧
      checkLabels (rewards.rewards.map Reward.name) [] rewards.labels = .ok () ∧
      checkRuleNames (entryNames sheet.rules) = .ok () ∧
      checkDescents table.entries table.capabilities = .ok () := by
  obtain ⟨hgoals, h⟩ := Except.seq_eq_ok_iff.mp h
  obtain ⟨hrewards, h⟩ := Except.seq_eq_ok_iff.mp h
  obtain ⟨hlabels, -⟩ := Except.seq_eq_ok_iff.mp hrewards
  obtain ⟨hnames, h⟩ := Except.seq_eq_ok_iff.mp h
  obtain ⟨blocks, hblocks, h⟩ := Except.bind_eq_ok_iff.mp h
  obtain ⟨-, h⟩ := Except.seq_eq_ok_iff.mp h
  obtain ⟨-, h⟩ := Except.seq_eq_ok_iff.mp h
  obtain ⟨-, h⟩ := Except.seq_eq_ok_iff.mp h
  obtain ⟨hdescents, h⟩ := Except.seq_eq_ok_iff.mp h
  cases h
  exact ⟨blocks, hblocks, rfl, hgoals, hlabels, hnames, hdescents⟩

/-- A compiled table is sound. -/
theorem sound_of_compile {sheet : RuleSheet} {rewards : RewardSheet} {table : Table}
    (h : compile sheet rewards = .ok table) : table.Sound := by
  obtain ⟨blocks, hblocks, rfl, hgoals, hlabels, hnames, hdescents⟩ := compile_spec h
  have hname := map_name_flatten_entries hblocks
  have hlength : blocks.flatten.length = entriesBefore sheet.rules sheet.rules.length := by
    rw [← length_entryNames, ← hname, List.length_map]
  have hresolves : ∀ entry ∈ blocks.flatten, ∃ c : Statement,
      Condition.Resolves blocks.flatten.length c entry.tree := fun entry hentry => by
    obtain ⟨block, hblock, hentry⟩ := List.mem_flatten.mp hentry
    obtain ⟨rule, -, hrule⟩ := Except.exists_of_mapM_eq_ok hblocks hblock
    rw [hlength, ← length_entryNames]
    exact ⟨_, (Rule.entries_spec hrule).2 entry hentry⟩
  constructor
  case names =>
    rw [Table.names, hname]
    exact checkRuleNames_eq_ok_iff.mp hnames
  case references =>
    intro entry hentry
    obtain ⟨c, hc⟩ := hresolves entry hentry
    exact hc.references
  case calls =>
    intro entry hentry
    obtain ⟨c, hc⟩ := hresolves entry hentry
    exact hc.calls
  case goals =>
    have := (checkGoals_eq_ok_iff.mp hgoals).entriesBefore
    rw [entriesBefore_zero, List.map_map] at this
    rw [List.map_map, hlength]
    exact this
  case locations =>
    intro goal hgoal location hlocation
    obtain ⟨marker, -, rfl⟩ := List.mem_map.mp hgoal
    obtain ⟨entry, hentry, rfl⟩ := List.mem_map.mp (NameSet.mem_ofList.mp hlocation)
    exact List.mem_map_of_mem (List.mem_of_mem_filter hentry)
  case labels => exact checkLabels_eq_ok_iff.mp hlabels
  case capabilities =>
    intro index hindex
    obtain ⟨rule, hrule⟩ := mem_of_mem_capabilityIndices hindex
    have := lt_of_mem_placeRules hrule
    rwa [hlength, ← Nat.zero_add (entriesBefore _ _)]
  case descents => exact checkDescents_eq_ok_iff.mp hdescents

/-- A compiled table is joined if the conditions of all rules are. -/
theorem joined_of_compile {sheet : RuleSheet} {rewards : RewardSheet} {table : Table}
    (h : compile sheet rewards = .ok table)
    (hjoined : ∀ rule ∈ sheet.rules,
      (Condition.group true rule.operator rule.conditions : Statement).Joined) :
    table.Joined := by
  obtain ⟨blocks, hblocks, rfl, -⟩ := compile_spec h
  intro entry hentry
  obtain ⟨block, hblock, hentry⟩ := List.mem_flatten.mp hentry
  obtain ⟨rule, hmem, hrule⟩ := Except.exists_of_mapM_eq_ok hblocks hblock
  exact ((Rule.entries_spec hrule).2 entry hentry).joined (hjoined rule hmem)

end Table

end Reachability
