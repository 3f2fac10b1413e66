import Reachability.Proofs.Outcome
import Reachability.Table.Compile

/-!
# Table — flags in another order

Sheets that differ only in the order of the flags of their rules (`RuleSheet.Reordered`) compile to
tables that differ only in the order of the flags of their entries, or fail for the same reason
(`Table.compile_reordered`).  Flags are asked three things: whether one is there, what stands with
it, and whether one of them has a property.  The order changes none of the answers, and so neither
what rules and entries read off their flags.

In each lemma the reordered side is rewritten to the other one.
-/

namespace Reachability

/-! ### What is reordered -/

/-- The same flags in another order. -/
def Flags.Reordered (flags flags' : Flags) : Prop := flags.entries.Perm flags'.entries

/-- The rule with its flags in another order. -/
inductive Rule.Reordered (rule : Rule) : Rule → Prop
  | intro {flags : Flags} : rule.flags.Reordered flags → Reordered rule { rule with flags }

/-- The slot with its flags in another order. -/
inductive Slot.Reordered (slot : Slot) : Slot → Prop
  | intro {flags : Flags} : slot.flags.Reordered flags → Reordered slot { slot with flags }

/-- The entry with its flags in another order. -/
inductive Entry.Reordered (entry : Entry) : Entry → Prop
  | intro {flags : Flags} : entry.flags.Reordered flags → Reordered entry { entry with flags }

/-- The sheet with the flags of each rule in another order. -/
inductive RuleSheet.Reordered (sheet : RuleSheet) : RuleSheet → Prop
  | intro {rules : List Rule} : List.Forall₂ Rule.Reordered sheet.rules rules →
      Reordered sheet { sheet with rules }

/-- The table with the flags of each entry in another order. -/
inductive Table.Reordered (table : Table) : Table → Prop
  | intro {entries : List Entry} : List.Forall₂ Entry.Reordered table.entries entries →
      Reordered table { table with entries }

/-! ### Lists that are related member by member -/

section
variable {α β γ : Type} {r : α → β → Prop} {as : List α} {bs : List β}

theorem map_eq_of_forall₂ {f : α → γ} {g : β → γ} (h : List.Forall₂ r as bs)
    (hfg : ∀ a b, r a b → g b = f a) : bs.map g = as.map f := by
  induction h with
  | nil => rfl
  | cons hab _ ih => rw [List.map_cons, List.map_cons, hfg _ _ hab, ih]

theorem filterMap_eq_of_forall₂ {f : α → Option γ} {g : β → Option γ} (h : List.Forall₂ r as bs)
    (hfg : ∀ a b, r a b → g b = f a) : bs.filterMap g = as.filterMap f := by
  have hmap := congrArg (List.filterMap id) (map_eq_of_forall₂ h hfg)
  rwa [List.filterMap_map, List.filterMap_map] at hmap

theorem findSome?_eq_of_forall₂ {f : α → Option γ} {g : β → Option γ} (h : List.Forall₂ r as bs)
    (hfg : ∀ a b, r a b → g b = f a) : bs.findSome? g = as.findSome? f := by
  have hmap := congrArg (List.findSome? id) (map_eq_of_forall₂ h hfg)
  rwa [List.findSome?_map, List.findSome?_map] at hmap

theorem option_map_eq_of_rel {f : α → γ} {g : β → γ} {x : Option α} {y : Option β}
    (h : Option.Rel r x y) (hfg : ∀ a b, r a b → g b = f a) : y.map g = x.map f := by
  cases h with
  | some hab => exact congrArg some (hfg _ _ hab)
  | none => rfl

end

/-! ### Flags -/

namespace Flags.Reordered

variable {flags flags' : Flags} (h : flags.Reordered flags')
include h

theorem any (p : Flag → Bool) : flags'.any p = flags.any p := (List.Perm.any_eq h).symm

theorem contains (flag : Flag) : flags'.contains flag = flags.contains flag :=
  (List.Perm.any_eq h).symm

/-- No flag is there twice, so what stands with one does not depend on its place. -/
theorem get? (flag : Flag) : flags'.get? flag = flags.get? flag := by
  refine Option.ext fun argument => ?_
  rw [get?_eq_some_iff, get?_eq_some_iff]
  exact (List.Perm.mem_iff h).symm

end Flags.Reordered

theorem Flags.Reordered.refl (flags : Flags) : flags.Reordered flags := List.Perm.refl _

/-! ### Rules -/

namespace Rule.Reordered

variable {rule rule' : Rule} (h : rule.Reordered rule')
include h

theorem flags : rule.flags.Reordered rule'.flags := by
  obtain ⟨hflags⟩ := h
  exact hflags

theorem name : rule'.name = rule.name := by
  obtain ⟨-⟩ := h
  rfl

theorem line : rule'.line = rule.line := by
  obtain ⟨-⟩ := h
  rfl

theorem isBank : rule'.isBank = rule.isBank := h.flags.any _

theorem width : rule'.width = rule.width := by
  rw [Rule.width, Rule.width, h.isBank]

theorem itemName? : rule'.itemName? = rule.itemName? := by
  simp only [Rule.itemName?, h.flags.any, h.flags.get?, h.name]

theorem flagNumber? (flag : Flag) : rule'.flagNumber? flag = rule.flagNumber? flag := by
  simp only [Rule.flagNumber?, h.flags.get?]

theorem bareFlag? : rule'.bareFlag? = rule.bareFlag? := by
  simp only [Rule.bareFlag?, h.flagNumber?, h.flags.contains]

theorem slots : List.Forall₂ Slot.Reordered rule.slots rule'.slots := by
  have hbank := h.isBank
  obtain ⟨hflags⟩ := h
  unfold Rule.slots
  rw [hbank]
  split
  · refine .cons (.intro (.refl ∅)) ?_
    rw [List.forall₂_map_left_iff, List.forall₂_map_right_iff, List.forall₂_same]
    exact fun n _ => .intro hflags
  · exact .cons (.intro hflags) .nil

/-- The conditions do not depend on the flags, so the entries have the same trees. -/
theorem entries (names : List String) :
    (rule.entries names).Matches (List.Forall₂ Entry.Reordered) (rule'.entries names) := by
  have hslots := h.slots
  have hitem := h.itemName?
  obtain ⟨hflags⟩ := h
  refine Except.matches_bind fun members => .ok ?_
  rw [List.forall₂_map_left_iff, List.forall₂_map_right_iff, hitem]
  refine hslots.imp fun slot slot' hslot => ?_
  obtain ⟨hflags⟩ := hslot
  exact .intro hflags

end Rule.Reordered

section
variable {rules rules' : List Rule} (h : List.Forall₂ Rule.Reordered rules rules')
include h

theorem entryNames_reordered : entryNames rules' = entryNames rules := by
  unfold entryNames
  rw [List.flatMap_def, List.flatMap_def]
  refine congrArg List.flatten (map_eq_of_forall₂ h fun rule rule' hrule => ?_)
  refine map_eq_of_forall₂ hrule.slots fun slot slot' hslot => ?_
  obtain ⟨-⟩ := hslot
  rfl

theorem entriesBefore_reordered (k : Nat) : entriesBefore rules' k = entriesBefore rules k := by
  induction h generalizing k with
  | nil => rfl
  | cons hrule _ ih =>
    cases k with
    | zero => rfl
    | succ k => rw [entriesBefore, entriesBefore, hrule.width, ih]

theorem claimedItems_reordered (rewards : List Reward) :
    claimedItems rules' rewards = claimedItems rules rewards := by
  unfold claimedItems
  rw [filterMap_eq_of_forall₂ h fun rule rule' hrule => ?_]
  rw [hrule.itemName?, hrule.line]

theorem checkFlagValues_reordered : checkFlagValues rules' = checkFlagValues rules := by
  unfold checkFlagValues
  rw [findSome?_eq_of_forall₂ h fun rule rule' hrule => ?_]
  rw [hrule.bareFlag?, hrule.name]

theorem placeRules_reordered (start : Nat) :
    List.Forall₂ (fun placed placed' => placed.1.Reordered placed'.1 ∧ placed'.2 = placed.2)
      (placeRules start rules) (placeRules start rules') := by
  induction h generalizing start with
  | nil => exact .nil
  | cons hrule _ ih =>
    rw [placeRules, placeRules, hrule.width]
    exact .cons ⟨hrule, rfl⟩ (ih _)

/-- Capabilities list rules by their flags, each where it was. -/
theorem capabilities_reordered : Capabilities.ofRules (placeRules 0 rules') =
    Capabilities.ofRules (placeRules 0 rules) := by
  have hflagged (flag : Flag) : Capabilities.flagged (placeRules 0 rules') flag =
      Capabilities.flagged (placeRules 0 rules) flag := by
    refine filterMap_eq_of_forall₂ (placeRules_reordered h 0) ?_
    rintro ⟨rule, index⟩ ⟨_, _⟩ ⟨hrule, rfl⟩
    simp only [hrule.flags.contains]
  have hvalued (flag : Flag) : Capabilities.valued (placeRules 0 rules') flag =
      Capabilities.valued (placeRules 0 rules) flag := by
    refine filterMap_eq_of_forall₂ (placeRules_reordered h 0) ?_
    rintro ⟨rule, index⟩ ⟨_, _⟩ ⟨hrule, rfl⟩
    simp only [hrule.flagNumber?]
  simp only [Capabilities.ofRules, hflagged, hvalued]

end

/-! ### Entries -/

namespace Entry.Reordered

variable {entry entry' : Entry} (h : entry.Reordered entry')
include h

theorem flags : entry.flags.Reordered entry'.flags := by
  obtain ⟨hflags⟩ := h
  exact hflags

theorem name : entry'.name = entry.name := by
  obtain ⟨-⟩ := h
  rfl

theorem tree : entry'.tree = entry.tree := by
  obtain ⟨-⟩ := h
  rfl

theorem defaultItemName : entry'.defaultItemName = entry.defaultItemName := by
  obtain ⟨-⟩ := h
  rfl

theorem goalName? : entry'.goalName? = entry.goalName? := by
  simp only [Entry.goalName?, h.flags.get?, h.name]

theorem belongsTo (goal : String) : entry'.belongsTo goal = entry.belongsTo goal := by
  simp only [Entry.belongsTo, bossGoal?, h.goalName?, h.flags.contains]

end Entry.Reordered

section
variable {entries entries' : List Entry} (h : List.Forall₂ Entry.Reordered entries entries')
include h

theorem names_reordered : entries'.map Entry.name = entries.map Entry.name := by
  exact map_eq_of_forall₂ h fun entry entry' hentry => hentry.name

/-- Under an index stand reordered entries, or none in both lists. -/
theorem getElem?_reordered (index : Nat) :
    Option.Rel Entry.Reordered entries[index]? entries'[index]? := by
  induction h generalizing index with
  | nil => exact .none
  | cons hentry _ ih =>
    cases index with
    | zero => exact .some hentry
    | succ index => exact ih index

/-- Under a name stand reordered entries, or none in both lists. -/
theorem find?_reordered (name : String) : Option.Rel Entry.Reordered
    (entries.find? (·.name == name)) (entries'.find? (·.name == name)) := by
  induction h with
  | nil => exact .none
  | cons hentry _ ih =>
    rw [List.find?_cons, List.find?_cons, hentry.name]
    split
    · exact .some hentry
    · exact ih

theorem checkGoalNames_reordered (goals : List String) :
    checkGoalNames goals entries' = checkGoalNames goals entries := by
  unfold checkGoalNames
  rw [findSome?_eq_of_forall₂ h fun entry entry' hentry => ?_]
  rw [hentry.goalName?, hentry.name]

theorem checkDescents_reordered (capabilities : Capabilities) :
    checkDescents entries' capabilities = checkDescents entries capabilities := by
  have hdescents : descentsOf entries' capabilities = descentsOf entries capabilities := by
    funext index
    have hfound := getElem?_reordered h index
    unfold descentsOf
    generalize entries[index]? = found, entries'[index]? = found' at hfound
    cases hfound with
    | none => rfl
    | some hentry => simp only [hentry.tree]
  have hname (index : Nat) :
      (entries'[index]?).map Entry.name = (entries[index]?).map Entry.name := by
    rw [← List.getElem?_map, ← List.getElem?_map, names_reordered h]
  simp only [checkDescents, cyclicNames?, hdescents, hname, h.length_eq]

/-- A goal has the same locations among reordered entries. -/
theorem goal_reordered {rules rules' : List Rule}
    (hrules : List.Forall₂ Rule.Reordered rules rules') :
    GoalMarker.goal rules' entries' = GoalMarker.goal rules entries := by
  funext marker
  have hfilter : List.Forall₂ Entry.Reordered (entries.filter (·.belongsTo marker.name))
      (entries'.filter (·.belongsTo marker.name)) := by
    refine List.rel_filter (fun entry entry' hentry => ?_) h
    simp only [hentry.belongsTo]
  rw [GoalMarker.goal, GoalMarker.goal, entriesBefore_reordered hrules, names_reordered hfilter]

end

namespace Table

/-- Sheets with reordered flags fail for the same reason or compile to tables with reordered
flags. -/
theorem compile_reordered {sheet sheet' : RuleSheet} (h : sheet.Reordered sheet')
    (rewards : RewardSheet) :
    (compile sheet rewards).Matches Table.Reordered (compile sheet' rewards) := by
  obtain ⟨hrules⟩ := h
  unfold compile
  simp only [← hrules.length_eq, entryNames_reordered hrules, checkItems,
    claimedItems_reordered hrules, checkFlagValues_reordered hrules, capabilities_reordered hrules]
  refine Except.matches_bind fun _ => Except.matches_bind fun _ => Except.matches_bind fun _ => ?_
  have hblocks := Except.matches_mapM hrules fun rule rule' hrule =>
    hrule.entries (entryNames sheet.rules)
  refine hblocks.bind fun blocks blocks' hblocks => ?_
  have hentries := List.rel_flatten hblocks
  simp only [checkGoalNames_reordered hentries, checkDescents_reordered hentries,
    goal_reordered hentries hrules]
  refine Except.matches_bind fun _ => Except.matches_bind fun _ => Except.matches_bind fun _ =>
    Except.matches_bind fun _ => .ok ?_
  exact .intro hentries

end Table

end Reachability
