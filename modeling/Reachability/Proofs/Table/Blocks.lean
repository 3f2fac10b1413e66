import Reachability.Proofs.Cache.Store
import Reachability.Proofs.Table.Accepted

/-!
# Table — what a sheet is compiled to

A compiled table lists its rules in blocks, one for each rule of the sheet and in the order of the
sheet (`Rule.Fills`).  Three numberings meet here: the rules of the sheet, the entries of the table,
and the ends of goals among both.  `Table.InBlocks` says how they fit together, and
`Table.blocks_of_compile` that they do in every compiled table.
-/

namespace Reachability

namespace Condition

/-- A condition and its tree: every name is replaced by an index at which `names` has it, every
function by the registered one of its name, and nothing else is changed. -/
inductive Resolution (names : List String) : Statement → Tree → Prop
  | item {sign : Bool} {name : String} {index : Nat} {quantity : UInt64} :
      names[index]? = some name →
      Resolution names (.item sign name quantity) (.item sign index quantity)
  | location {sign : Bool} {name : String} {index : Nat} :
      names[index]? = some name → Resolution names (.location sign name) (.location sign index)
  | call {sign : Bool} {function : Builtin} {argument : Option Argument} :
      Resolution names (.call sign function.name argument) (.call sign function argument)
  | group {sign : Bool} {operator : Option Operator} {members : List Statement}
      {trees : List Tree} : List.Forall₂ (Resolution names) members trees →
      Resolution names (.group sign operator members) (.group sign operator trees)

variable {names : List String} {owner : String}

theorem getElem?_of_idxOf? {name : String} {index : Nat} (h : names.idxOf? name = some index) :
    names[index]? = some name := by
  obtain ⟨hlt, hname, -⟩ := List.idxOf?_eq_some_iff.mp h
  rw [List.getElem?_eq_getElem hlt, hname]

theorem resolution_of_resolve {c : Statement} {tree : Tree}
    (h : resolve names owner c = .ok tree) : Resolution names c tree := by
  induction c using Condition.induct generalizing tree with
  | item sign name quantity =>
    obtain ⟨index, hindex, rfl⟩ := resolve_item_eq_ok_iff.mp h
    exact .item (getElem?_of_idxOf? hindex)
  | location sign name =>
    obtain ⟨index, hindex, rfl⟩ := resolve_location_eq_ok_iff.mp h
    exact .location (getElem?_of_idxOf? hindex)
  | call sign name argument =>
    obtain ⟨function, ⟨rfl, -⟩, rfl⟩ := resolve_call_eq_ok_iff.mp h
    exact .call
  | group sign operator members ih =>
    obtain ⟨trees, htrees, rfl⟩ := resolve_group_eq_ok_iff.mp h
    -- each tree of the group is that of the member at its place
    exact .group ((Except.forall₂_of_mapM_eq_ok htrees).imp fun c tree h => ih c h.1 h.2)

end Condition

/-! ### Blocks -/

/-- The block of a rule: one entry with its name and flags, or for a bank a base entry without flags
and a hundred numbered copies that carry the flags.  Each entry keeps the line, the item name and the
conditions of the rule. -/
structure Rule.Fills (names : List String) (rule : Rule) (block : List Entry) : Prop where
  single : (∀ flag, rule.flags.contains flag = true → flag.isMultiLocation = false) →
    ∃ entry, block = [entry] ∧ entry.name = rule.name ∧ entry.flags = rule.flags ∧
      entry.copy = none
  bank : (∃ flag, rule.flags.contains flag = true ∧ flag.isMultiLocation = true) →
    block.length = 101 ∧
      (∃ base, block[0]? = some base ∧ base.name = rule.name ∧ base.flags = ∅ ∧
        base.copy = none) ∧
      ∀ n, 1 ≤ n → n ≤ 100 → ∃ copy, block[n]? = some copy ∧ copy.name = s!"{rule.name} {n}" ∧
        copy.flags = rule.flags ∧ copy.copy.map UInt32.toNat = some n
  lines : ∀ entry ∈ block, entry.line = rule.line
  itemNames : ∀ entry ∈ block, entry.itemName = rule.itemName?
  trees : ∀ entry ∈ block, Condition.Resolution names
    (.group true rule.operator rule.conditions) entry.tree

namespace Rule

variable {names : List String} {rule : Rule}

theorem isBank_eq_false_iff : rule.isBank = false ↔
    ∀ flag, rule.flags.contains flag = true → flag.isMultiLocation = false := by
  simp only [isBank, Flags.any, List.any_eq_false, Flags.contains_iff, List.mem_map,
    Bool.not_eq_true]
  constructor
  · rintro h _ ⟨entry, hentry, rfl⟩
    exact h entry hentry
  · intro h entry hentry
    exact h _ ⟨entry, hentry, rfl⟩

theorem isBank_eq_true_iff : rule.isBank = true ↔
    ∃ flag, rule.flags.contains flag = true ∧ flag.isMultiLocation = true := by
  rw [← Bool.not_eq_false, isBank_eq_false_iff]
  simp

/-- The numbered copies of a bank are those from 1 to 100. -/
theorem getElem?_slots (hbank : rule.isBank = true) {n : Nat} (hpos : 1 ≤ n) (hle : n ≤ 100) :
    rule.slots[n]? = some (rule.copySlot n) := by
  obtain ⟨n, rfl⟩ := Nat.exists_eq_add_of_le' hpos
  rw [slots, if_pos hbank, List.getElem?_cons_succ, List.getElem?_map,
    List.getElem?_range' (by unfold bankSize; omega), Option.map_some, Nat.one_mul,
    Nat.add_comm]

/-- The entries of a rule are its block. -/
theorem fills_of_entries {block : List Entry} (h : rule.entries names = .ok block) :
    rule.Fills names block := by
  obtain ⟨tree, hresolve, rfl⟩ := exists_tree_of_entries h
  constructor
  case single =>
    intro hflags
    have hbank : rule.isBank = false := isBank_eq_false_iff.mpr hflags
    rw [slots, hbank]
    exact ⟨_, rfl, rfl, rfl, rfl⟩
  case bank =>
    intro hflags
    have hbank : rule.isBank = true := isBank_eq_true_iff.mpr hflags
    refine ⟨?_, ?_, fun n hpos hle => ?_⟩
    · rw [List.length_map, length_slots, width, if_pos hbank, bankSize]
    · rw [slots, if_pos hbank]
      exact ⟨_, rfl, rfl, rfl, rfl⟩
    · rw [List.getElem?_map, getElem?_slots hbank hpos hle]
      refine ⟨_, rfl, rfl, rfl, congrArg some ?_⟩
      exact UInt32.toNat_ofNat_of_lt' (by unfold UInt32.size; omega)
  all_goals
    intro entry hentry
    obtain ⟨slot, -, rfl⟩ := List.mem_map.mp hentry
  case lines => rfl
  case itemNames => rfl
  case trees => exact Condition.resolution_of_resolve hresolve

/-- A rule has as many entries as it is wide. -/
theorem length_of_entries {block : List Entry} (h : rule.entries names = .ok block) :
    block.length = rule.width := by
  have hnames := congrArg List.length (entries_spec h).1
  rwa [List.length_map, List.length_map, length_slots] at hnames

theorem flagNumber?_eq_some_iff {flag : Flag} {value : UInt64} :
    rule.flagNumber? flag = some value ↔
      rule.flags.get? flag = some (some (.number value)) := by
  unfold flagNumber?
  rcases rule.flags.get? flag with _ | _ | _ | _ <;> simp [Argument.number?]

end Rule

/-- As many entries come before a rule as the blocks before it have. -/
theorem length_flatten_take {rules : List Rule} {blocks : List (List Entry)}
    (h : List.Forall₂ (fun rule block => block.length = rule.width) rules blocks) (k : Nat) :
    (blocks.take k).flatten.length = entriesBefore rules k := by
  induction h generalizing k with
  | nil => cases k <;> rfl
  | cons hwidth _ ih =>
    cases k with
    | zero => rfl
    | succ k => rw [List.take_succ_cons, List.flatten_cons, List.length_append, hwidth, ih k,
        entriesBefore]

/-- The entries before the end of some blocks are those of the blocks. -/
theorem take_length_flatten_take (blocks : List (List Entry)) (k : Nat) :
    blocks.flatten.take (blocks.take k).flatten.length = (blocks.take k).flatten := by
  conv_lhs => rw [← List.take_append_drop k blocks, List.flatten_append]
  rw [List.take_append_drop, List.take_left]

/-! ### Capabilities -/

namespace Capabilities

/-- The tables of entries that have a flag. -/
def flaggedTables (capabilities : Capabilities) : List (Flag × List Nat) :=
  [(.npc, capabilities.npcs), (.mechBoss, capabilities.mechBosses),
   (.finalBoss, capabilities.finalBosses)]

/-- The tables of entries that have a flag with a number. -/
def valuedTables (capabilities : Capabilities) : List (Flag × List (Nat × UInt64)) :=
  [(.pickaxe, capabilities.pickaxes), (.hammer, capabilities.hammers),
   (.weaponPower, capabilities.weapons), (.armorPower, capabilities.armor),
   (.accessoryPower, capabilities.accessories), (.armorMinions, capabilities.armorMinions),
   (.minions, capabilities.accessoryMinions)]

variable {placed : List (Rule × Nat)} {flag : Flag}

theorem eq_flagged_of_mem {indices : List Nat}
    (h : (flag, indices) ∈ (ofRules placed).flaggedTables) : indices = flagged placed flag := by
  simp only [flaggedTables, ofRules, List.mem_cons, Prod.mk.injEq, List.not_mem_nil, or_false] at h
  rcases h with ⟨rfl, rfl⟩ | ⟨rfl, rfl⟩ | ⟨rfl, rfl⟩ <;> rfl

theorem eq_valued_of_mem {listed : List (Nat × UInt64)}
    (h : (flag, listed) ∈ (ofRules placed).valuedTables) :
    listed = valued placed flag ∧ flag ∈ Rule.numericFlags := by
  simp only [valuedTables, ofRules, List.mem_cons, Prod.mk.injEq, List.not_mem_nil, or_false] at h
  rcases h with ⟨rfl, rfl⟩ | ⟨rfl, rfl⟩ | ⟨rfl, rfl⟩ | ⟨rfl, rfl⟩ | ⟨rfl, rfl⟩ | ⟨rfl, rfl⟩ |
      ⟨rfl, rfl⟩ <;>
    exact ⟨rfl, by decide⟩

/-- The entries of a flag are listed in the order of their rules. -/
theorem pairwise_flagged (rules : List Rule) (flag : Flag) :
    (flagged (placeRules 0 rules) flag).Pairwise (· < ·) := by
  refine (pairwise_placeRules 0 rules).filterMap _ ?_
  rintro ⟨rule, i⟩ ⟨rule', j⟩ hlt _ hi _ hj
  dsimp only at hlt hi hj
  split at hi <;> cases hi
  split at hj <;> cases hj
  exact hlt

/-- The entries of a flag with a number are listed in the order of their rules. -/
theorem pairwise_valued (rules : List Rule) (flag : Flag) :
    ((valued (placeRules 0 rules) flag).map Prod.fst).Pairwise (· < ·) := by
  rw [List.pairwise_map]
  refine (pairwise_placeRules 0 rules).filterMap _ ?_
  rintro ⟨rule, i⟩ ⟨rule', j⟩ hlt _ hi _ hj
  obtain ⟨_, -, rfl⟩ := Option.map_eq_some_iff.mp hi
  obtain ⟨_, -, rfl⟩ := Option.map_eq_some_iff.mp hj
  exact hlt

end Capabilities

/-! ### Compiled tables -/

/-- The block of the rule begins at `index`: as many entries come before it as the blocks of the
rules before it have. -/
def BeginsAt (rules : List Rule) (blocks : List (List Entry)) (rule : Rule) (index : Nat) : Prop :=
  ∃ k, rules[k]? = some rule ∧ index = (blocks.take k).flatten.length

namespace Table

/-- The table of a sheet in blocks, one for each rule.  A goal ends where the blocks of the rules
before its marker do, and a capability names where the block of a rule begins. -/
structure InBlocks (sheet : RuleSheet) (table : Table) (blocks : List (List Entry)) : Prop where
  names : table.names.Nodup
  entries : table.entries = blocks.flatten
  rules : List.Forall₂ (Rule.Fills table.names) sheet.rules blocks
  goals : List.Forall₂ (fun (marker : GoalMarker) (goal : Goal) => goal.name = marker.name ∧
    goal.stop = (blocks.take marker.stop).flatten.length ∧
    table.entries.take goal.stop = (blocks.take marker.stop).flatten) sheet.goals table.goals
  flagged : ∀ flag indices, (flag, indices) ∈ table.capabilities.flaggedTables →
    indices.Pairwise (· < ·) ∧ ∀ index, index ∈ indices ↔
      ∃ rule, BeginsAt sheet.rules blocks rule index ∧ rule.flags.contains flag = true
  valued : ∀ flag listed, (flag, listed) ∈ table.capabilities.valuedTables →
    (listed.map Prod.fst).Pairwise (· < ·) ∧
    (∀ index value, (index, value) ∈ listed ↔ ∃ rule, BeginsAt sheet.rules blocks rule index ∧
      rule.flags.get? flag = some (some (.number value))) ∧
    ∀ rule ∈ sheet.rules, rule.flags.contains flag = true →
      ∃ value, rule.flags.get? flag = some (some (.number value))

/-- The table of a sheet is made of one block for each rule, in order; its goals and capabilities
count entries as the blocks do. -/
theorem blocks_of_compile {sheet : RuleSheet} {rewards : RewardSheet} {table : Table}
    (h : compile sheet rewards = .ok table) : ∃ blocks, InBlocks sheet table blocks := by
  have hnodup : table.names.Nodup := (sound_of_compile h).names
  obtain ⟨-, -, -, -, -, -, -, hvalues, -⟩ := exists_compile_iff.mp ⟨table, h⟩
  obtain ⟨blocks, hblocks, rfl, -⟩ := compile_spec h
  have hnames : blocks.flatten.map Entry.name = entryNames sheet.rules :=
    map_name_flatten_entries hblocks
  have hmade := Except.forall₂_of_mapM_eq_ok hblocks
  -- the two ways to count the entries before a rule
  have hbefore : ∀ k, (blocks.take k).flatten.length = entriesBefore sheet.rules k := by
    exact length_flatten_take (hmade.imp fun rule block hblock => Rule.length_of_entries hblock.2)
  have hplaced : ∀ rule index, (rule, index) ∈ placeRules 0 sheet.rules ↔
      BeginsAt sheet.rules blocks rule index := by
    intro rule index
    simp only [mem_placeRules_iff, BeginsAt, hbefore, Nat.zero_add]
  refine ⟨blocks, ?_⟩
  constructor
  case names => exact hnodup
  case entries => rfl
  case rules =>
    rw [Table.names, hnames]
    exact hmade.imp fun rule block hblock => Rule.fills_of_entries hblock.2
  case goals =>
    rw [List.forall₂_map_right_iff, List.forall₂_same]
    intro marker _
    refine ⟨rfl, (hbefore marker.stop).symm, ?_⟩
    rw [GoalMarker.goal, ← hbefore]
    exact take_length_flatten_take blocks marker.stop
  case flagged =>
    intro flag indices hmem
    obtain rfl := Capabilities.eq_flagged_of_mem hmem
    refine ⟨Capabilities.pairwise_flagged sheet.rules flag, fun index => ?_⟩
    simp only [Capabilities.mem_flagged_iff, hplaced]
  case valued =>
    intro flag listed hmem
    obtain ⟨rfl, hnumeric⟩ := Capabilities.eq_valued_of_mem hmem
    refine ⟨Capabilities.pairwise_valued sheet.rules flag, fun index value => ?_,
      fun rule hrule hflag => ?_⟩
    · simp only [Capabilities.mem_valued_iff, hplaced, Rule.flagNumber?_eq_some_iff]
    · obtain ⟨argument, hargument⟩ := Flags.contains_iff_get?.mp hflag
      obtain ⟨value, rfl⟩ := Rule.bareFlag?_eq_none_iff.mp
        (checkFlagValues_eq_ok_iff.mp hvalues rule hrule) flag hnumeric argument hargument
      exact ⟨value, hargument⟩

/-- The fourth entry of the table is a weapon, and the block of a rule begins there that says how
strong it is. -/
theorem blocks_of_compile_torchTable : ∃ blocks rule,
    compile torchSheet {} = .ok torchTable ∧ InBlocks torchSheet torchTable blocks ∧
      BeginsAt torchSheet.rules blocks rule 3 ∧
      rule.flags.get? .weaponPower = some (some (.number 20)) := by
  have hcompile : compile torchSheet {} = .ok torchTable := rfl
  obtain ⟨blocks, hblocks⟩ := blocks_of_compile hcompile
  have hweapons : (Flag.weaponPower, [(3, 20)]) ∈ torchTable.capabilities.valuedTables := by
    decide
  obtain ⟨rule, hbegins, hpower⟩ :=
    ((hblocks.valued .weaponPower [(3, 20)] hweapons).2.1 3 20).mp List.mem_cons_self
  exact ⟨blocks, rule, hcompile, hblocks, hbegins, hpower⟩

end Table

end Reachability
