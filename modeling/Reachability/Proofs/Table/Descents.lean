import Mathlib.Data.List.Nodup
import Reachability.Proofs.Table.Compiled
import Reachability.Proofs.Table.Cycle

/-!
# Table — descents by name

Which conditions can be resolved against the names of rules, and where the resolved ones lead: the
graph of the entries of a table, whose nodes are indices, is the graph that the rules describe by
their names (`Descends`).  The one has a cycle exactly if the other has
(`checkDescents_eq_ok_iff_acyclic`).
-/

namespace Reachability

/-! ### Conditions that can be resolved -/

namespace Condition

variable {names : List String} {owner : String}

/-- All names in a condition are among `names`, and all functions are registered and get the
number they ask for, at any depth. -/
structure Resolvable (names : List String) (c : Statement) : Prop where
  items : ∀ sign name quantity, Inside (.item sign name quantity) c → name ∈ names
  locations : ∀ sign name, Inside (.location sign name) c → name ∈ names
  calls : ∀ sign name argument, Inside (.call sign name argument) c →
    ∃ function : Builtin, function.name = name ∧
      (function.takesNumber = true → ∃ n, argument = some (.number n))

section
variable {sign : Bool}

theorem resolvable_item {name : String} {quantity : UInt64} :
    Resolvable names (.item sign name quantity) ↔ name ∈ names := by
  refine ⟨fun h => h.items sign name quantity .self, fun h => ⟨?_, nofun, nofun⟩⟩
  rintro _ _ _ ⟨⟩
  exact h

theorem resolvable_location {name : String} :
    Resolvable names (.location sign name) ↔ name ∈ names := by
  refine ⟨fun h => h.locations sign name .self, fun h => ⟨nofun, ?_, nofun⟩⟩
  rintro _ _ ⟨⟩
  exact h

theorem resolvable_call {name : String} {argument : Option Argument} :
    Resolvable names (.call sign name argument) ↔ ∃ function : Builtin, function.name = name ∧
      (function.takesNumber = true → ∃ n, argument = some (.number n)) := by
  refine ⟨fun h => h.calls sign name argument .self, fun h => ⟨nofun, nofun, ?_⟩⟩
  rintro _ _ _ ⟨⟩
  exact h

theorem resolvable_group {operator : Option Operator} {members : List Statement} :
    Resolvable names (.group sign operator members) ↔ ∀ c ∈ members, Resolvable names c := by
  constructor
  · intro h c hc
    exact ⟨fun sign name quantity hin => h.items sign name quantity (.member hc hin),
      fun sign name hin => h.locations sign name (.member hc hin),
      fun sign name argument hin => h.calls sign name argument (.member hc hin)⟩
  · intro h
    constructor
    case items =>
      rintro sign name quantity (_ | ⟨hc, hin⟩)
      exact (h _ hc).items sign name quantity hin
    case locations =>
      rintro sign name (_ | ⟨hc, hin⟩)
      exact (h _ hc).locations sign name hin
    case calls =>
      rintro sign name argument (_ | ⟨hc, hin⟩)
      exact (h _ hc).calls sign name argument hin

end

theorem suits_iff {function : Builtin} {argument : Option Argument} :
    suits function argument = true ↔
      (function.takesNumber = true → ∃ n, argument = some (.number n)) := by
  have hnumber : (argument.bind Argument.number?).isSome = true ↔
      ∃ n, argument = some (.number n) := by
    rcases argument with _ | (_ | _) <;> simp [Argument.number?]
  rw [suits, Bool.or_eq_true, hnumber]
  cases function.takesNumber <;> simp

theorem exists_idxOf?_iff {name : String} : (∃ index, names.idxOf? name = some index) ↔
    name ∈ names := by
  rw [← Option.ne_none_iff_exists', ne_eq, List.idxOf?_eq_none_iff, not_not]

/-- A condition can be resolved exactly if everything inside it can. -/
theorem exists_resolve_iff {c : Statement} :
    (∃ tree, resolve names owner c = .ok tree) ↔ Resolvable names c := by
  induction c using Condition.induct with
  | item sign name quantity =>
    rw [resolvable_item, ← exists_idxOf?_iff, resolve]
    cases names.idxOf? name <;> simp
  | location sign name =>
    rw [resolvable_location, ← exists_idxOf?_iff, resolve]
    cases names.idxOf? name <;> simp
  | call sign name argument =>
    simp only [resolvable_call, resolve_call_eq_ok_iff, suits_iff]
    constructor
    · rintro ⟨_, function, hfunction, -⟩
      exact ⟨function, hfunction⟩
    · rintro ⟨function, hfunction⟩
      exact ⟨_, function, hfunction, rfl⟩
  | group sign operator members ih =>
    rw [resolvable_group]
    have hmembers : (∀ c ∈ members, Resolvable names c) ↔
        ∃ trees, members.mapM (resolve names owner) = .ok trees := by
      rw [Except.exists_mapM_eq_ok_iff]
      exact forall₂_congr fun c hc => (ih c hc).symm
    simp only [hmembers, resolve_group_eq_ok_iff]
    constructor
    · rintro ⟨_, trees, htrees, -⟩
      exact ⟨trees, htrees⟩
    · rintro ⟨trees, htrees⟩
      exact ⟨_, trees, htrees, rfl⟩

/-- A resolved condition leads to the rules whose locations it names and, if it calls the function
that looks for gear, to all gear. -/
theorem mem_descents_of_resolve {gear : List Nat} {c : Statement} {tree : Tree}
    (h : resolve names owner c = .ok tree) {index : Nat} :
    index ∈ tree.descents gear ↔
      (∃ sign name, Inside (.location sign name) c ∧ names.idxOf? name = some index) ∨
      (∃ sign argument, Inside (.call sign Builtin.gearPower.name argument) c) ∧
        index ∈ gear := by
  induction c using Condition.induct generalizing tree with
  | item sign name quantity =>
    obtain ⟨target, -, rfl⟩ := resolve_item_eq_ok_iff.mp h
    constructor
    · rintro ⟨⟩
    · rintro (⟨_, _, ⟨⟩, _⟩ | ⟨⟨_, _, ⟨⟩⟩, _⟩)
  | location sign name =>
    obtain ⟨target, htarget, rfl⟩ := resolve_location_eq_ok_iff.mp h
    rw [descents, List.mem_singleton]
    constructor
    · rintro rfl
      exact .inl ⟨sign, name, .self, htarget⟩
    · rintro (⟨_, _, ⟨⟩, hname⟩ | ⟨⟨_, _, ⟨⟩⟩, _⟩)
      exact Option.some.inj (hname.symm.trans htarget)
  | call sign name argument =>
    obtain ⟨function, ⟨hname, -⟩, rfl⟩ := resolve_call_eq_ok_iff.mp h
    rw [descents]
    constructor
    · split
      · next hgear =>
        rw [← hname, hgear]
        exact fun hindex => .inr ⟨⟨sign, argument, .self⟩, hindex⟩
      · rintro ⟨⟩
    · rintro (⟨_, _, ⟨⟩, _⟩ | ⟨⟨_, _, ⟨⟩⟩, hindex⟩)
      rwa [if_pos (Builtin.name_injective hname)]
  | group sign operator members ih =>
    obtain ⟨trees, htrees, rfl⟩ := resolve_group_eq_ok_iff.mp h
    rw [mem_descents_group]
    constructor
    · rintro ⟨t, ht, hindex⟩
      obtain ⟨c, hc, hresolve⟩ := Except.exists_of_mapM_eq_ok htrees ht
      rcases (ih c hc hresolve).mp hindex with ⟨s, name, hin, hname⟩ | ⟨⟨s, argument, hin⟩, hgear⟩
      · exact .inl ⟨s, name, .member hc hin, hname⟩
      · exact .inr ⟨⟨s, argument, .member hc hin⟩, hgear⟩
    · rintro (⟨s, name, _ | ⟨hc, hin⟩, hname⟩ | ⟨⟨s, argument, _ | ⟨hc, hin⟩⟩, hgear⟩)
      · obtain ⟨t, ht, hresolve⟩ := Except.exists_mem_of_mapM_eq_ok htrees hc
        exact ⟨t, ht, (ih _ hc hresolve).mpr (.inl ⟨s, name, hin, hname⟩)⟩
      · obtain ⟨t, ht, hresolve⟩ := Except.exists_mem_of_mapM_eq_ok htrees hc
        exact ⟨t, ht, (ih _ hc hresolve).mpr (.inr ⟨⟨s, argument, hin⟩, hgear⟩)⟩

end Condition

/-! ### Where the names of rules lead -/

/-- The flags of gear, each with the power that it gives. -/
def gearFlags : List Flag := [.weaponPower, .armorPower, .accessoryPower]

/-- The tree of the first of two names of entries enters that of the second one: the rule has it as
a location, or calls the function that looks for gear, and the second is gear. -/
inductive Descends (rules : List Rule) : String → String → Prop
  | location {rule : Rule} {slot : Slot} {c : Statement} {sign : Bool} {target : String} :
      rule ∈ rules → slot ∈ rule.slots → c ∈ rule.conditions →
      Condition.Inside (.location sign target) c → Descends rules slot.name target
  | gear {rule gear : Rule} {slot : Slot} {c : Statement} {sign : Bool}
      {argument : Option Argument} {flag : Flag} {power : UInt64} :
      rule ∈ rules → slot ∈ rule.slots → c ∈ rule.conditions →
      Condition.Inside (.call sign Builtin.gearPower.name argument) c →
      gear ∈ rules → flag ∈ gearFlags → gear.flagNumber? flag = some power →
      Descends rules slot.name gear.name

/-! ### The entries of rules -/

namespace Rule

/-- The entry is that of a slot of the rule, with the conditions of the rule resolved. -/
structure Makes (names : List String) (rule : Rule) (slot : Slot) (entry : Entry) : Prop where
  mem : slot ∈ rule.slots
  name : entry.name = slot.name
  flags : entry.flags = slot.flags
  itemName : entry.itemName = rule.itemName?
  tree : Condition.resolve names rule.name (.group true rule.operator rule.conditions) =
    .ok entry.tree

variable {names : List String} {rule : Rule}

/-- A rule has entries exactly if its conditions can be resolved. -/
theorem exists_entries_iff :
    (∃ entries, rule.entries names = .ok entries) ↔
      ∀ c ∈ rule.conditions, Condition.Resolvable names c := by
  have hmembers : (∀ c ∈ rule.conditions, Condition.Resolvable names c) ↔
      ∃ trees, Condition.resolveAll names rule.name rule.conditions = .ok trees := by
    rw [Condition.resolveAll_eq_mapM, Except.exists_mapM_eq_ok_iff]
    exact forall₂_congr fun c _ => Condition.exists_resolve_iff.symm
  rw [hmembers]
  constructor
  · rintro ⟨entries, h⟩
    obtain ⟨trees, htrees, -⟩ := Except.bind_eq_ok_iff.mp h
    exact ⟨trees, htrees⟩
  · rintro ⟨trees, htrees⟩
    exact ⟨_, Except.bind_eq_ok_iff.mpr ⟨trees, htrees, rfl⟩⟩

/-- Each slot of a rule makes an entry, and there are no others. -/
theorem makes_of_entries {entries : List Entry} (h : rule.entries names = .ok entries) :
    (∀ entry ∈ entries, ∃ slot, rule.Makes names slot entry) ∧
      ∀ slot ∈ rule.slots, ∃ entry ∈ entries, rule.Makes names slot entry := by
  obtain ⟨tree, hresolve, rfl⟩ := exists_tree_of_entries h
  constructor
  · intro entry hentry
    obtain ⟨slot, hslot, rfl⟩ := List.mem_map.mp hentry
    exact ⟨slot, hslot, rfl, rfl, rfl, hresolve⟩
  · intro slot hslot
    exact ⟨_, List.mem_map_of_mem hslot, hslot, rfl, rfl, rfl, hresolve⟩

/-- The first slot of a rule has the name of the rule. -/
theorem head?_slots (rule : Rule) : (rule.slots.map Slot.name).head? = some rule.name := by
  unfold slots
  split <;> rfl

end Rule

/-- A rule is placed where its name is, after the names of what comes before the rules. -/
theorem getElem?_of_mem_placeRules {rules : List Rule} {rule : Rule} {index : Nat}
    (before : List String) (h : (rule, index) ∈ placeRules before.length rules) :
    (before ++ entryNames rules)[index]? = some rule.name := by
  induction rules generalizing before with
  | nil => cases h
  | cons first rest ih =>
    have hcons : entryNames (first :: rest) = first.slots.map Slot.name ++ entryNames rest := rfl
    rw [hcons]
    rcases List.mem_cons.mp h with h | h
    · cases h
      rw [List.getElem?_append_right le_rfl, Nat.sub_self, ← List.head?_eq_getElem?,
        List.head?_append, rule.head?_slots]
      rfl
    · rw [← List.append_assoc]
      refine ih _ ?_
      rwa [List.length_append, List.length_map, Rule.length_slots]

/-- Every rule is placed, and no others are. -/
theorem exists_mem_placeRules_iff {rules : List Rule} {start : Nat} {rule : Rule} :
    (∃ index, (rule, index) ∈ placeRules start rules) ↔ rule ∈ rules := by
  simp only [mem_placeRules_iff]
  rw [List.mem_iff_getElem?]
  constructor
  · rintro ⟨_, k, hk, -⟩
    exact ⟨k, hk⟩
  · rintro ⟨k, hk⟩
    exact ⟨_, k, hk, rfl⟩

/-- Gear is what has the flag of gear with a number. -/
theorem mem_gear_ofRules {placed : List (Rule × Nat)} {index : Nat} :
    index ∈ (Capabilities.ofRules placed).gear ↔
      ∃ gear flag power, (gear, index) ∈ placed ∧ flag ∈ gearFlags ∧
        gear.flagNumber? flag = some power := by
  simp only [Capabilities.gear, Capabilities.gearTables, Capabilities.ofRules, List.flatten_cons,
    List.flatten_nil, List.append_nil, List.map_append, List.mem_append,
    Capabilities.mem_map_fst_valued_iff, gearFlags, List.mem_cons, List.not_mem_nil, or_false]
  constructor
  · rintro (⟨gear, power, hplaced, hpower⟩ | ⟨gear, power, hplaced, hpower⟩ |
      ⟨gear, power, hplaced, hpower⟩)
    · exact ⟨gear, _, power, hplaced, .inl rfl, hpower⟩
    · exact ⟨gear, _, power, hplaced, .inr (.inl rfl), hpower⟩
    · exact ⟨gear, _, power, hplaced, .inr (.inr rfl), hpower⟩
  · rintro ⟨gear, flag, power, hplaced, rfl | rfl | rfl, hpower⟩
    · exact .inl ⟨gear, power, hplaced, hpower⟩
    · exact .inr (.inl ⟨gear, power, hplaced, hpower⟩)
    · exact .inr (.inr ⟨gear, power, hplaced, hpower⟩)

section
variable {names : List String} {rules : List Rule} {blocks : List (List Entry)}

/-- The entries of some rules are those of their slots. -/
theorem exists_makes_of_mem (h : rules.mapM (Rule.entries names) = .ok blocks) {entry : Entry}
    (hentry : entry ∈ blocks.flatten) :
    ∃ rule ∈ rules, ∃ slot, rule.Makes names slot entry := by
  obtain ⟨block, hblock, hentry⟩ := List.mem_flatten.mp hentry
  obtain ⟨rule, hrule, hentries⟩ := Except.exists_of_mapM_eq_ok h hblock
  exact ⟨rule, hrule, (Rule.makes_of_entries hentries).1 entry hentry⟩

/-- Each slot of some rules makes one of their entries. -/
theorem exists_mem_of_slot (h : rules.mapM (Rule.entries names) = .ok blocks) {rule : Rule}
    (hrule : rule ∈ rules) {slot : Slot} (hslot : slot ∈ rule.slots) :
    ∃ entry ∈ blocks.flatten, rule.Makes names slot entry := by
  obtain ⟨block, hblock, hentries⟩ := Except.exists_mem_of_mapM_eq_ok h hrule
  obtain ⟨entry, hentry, hmakes⟩ := (Rule.makes_of_entries hentries).2 slot hslot
  exact ⟨entry, List.mem_flatten.mpr ⟨block, hblock, hentry⟩, hmakes⟩

end

/-- The entries of a compiled table are those of the slots of its rules. -/
theorem Table.exists_makes {sheet : RuleSheet} {rewards : RewardSheet} {table : Table}
    (h : compile sheet rewards = .ok table) {entry : Entry} (hentry : entry ∈ table.entries) :
    ∃ rule ∈ sheet.rules, ∃ slot, rule.Makes (entryNames sheet.rules) slot entry := by
  obtain ⟨blocks, hblocks, rfl, -⟩ := compile_spec h
  exact exists_makes_of_mem hblocks hentry

/-! ### The two graphs -/

section
variable {rules : List Rule} {blocks : List (List Entry)}

/-- What an entry leads to is what its name leads to. -/
theorem descends_of_mem_descentsOf
    (h : rules.mapM (Rule.entries (entryNames rules)) = .ok blocks) {i j : Nat}
    (hj : j ∈ descentsOf blocks.flatten (.ofRules (placeRules 0 rules)) i) :
    ∃ a b, (entryNames rules)[i]? = some a ∧ (entryNames rules)[j]? = some b ∧
      Descends rules a b := by
  unfold descentsOf at hj
  split at hj
  · cases hj
  · next entry hentry =>
    have hi : (entryNames rules)[i]? = some entry.name := by
      rw [← map_name_flatten_entries h, List.getElem?_map, hentry]
      rfl
    obtain ⟨rule, hrule, slot, hmakes⟩ := exists_makes_of_mem h (List.mem_of_getElem? hentry)
    rw [hmakes.name] at hi
    rcases (Condition.mem_descents_of_resolve hmakes.tree).mp hj with
      ⟨sign, target, _ | ⟨hc, hin⟩, htarget⟩ | ⟨⟨sign, argument, _ | ⟨hc, hin⟩⟩, hgear⟩
    · obtain ⟨hlt, htarget, -⟩ := List.idxOf?_eq_some_iff.mp htarget
      refine ⟨_, target, hi, ?_, .location hrule hmakes.mem hc hin⟩
      rw [List.getElem?_eq_getElem hlt, htarget]
    · obtain ⟨gear, flag, power, hplaced, hflag, hpower⟩ := mem_gear_ofRules.mp hgear
      have hmem : gear ∈ rules := exists_mem_placeRules_iff.mp ⟨j, hplaced⟩
      exact ⟨_, gear.name, hi, getElem?_of_mem_placeRules [] hplaced,
        .gear hrule hmakes.mem hc hin hmem hflag hpower⟩

/-- What a name leads to is what some entry of this name leads to. -/
theorem mem_descentsOf_of_descends
    (h : rules.mapM (Rule.entries (entryNames rules)) = .ok blocks) {a b : String}
    (hab : Descends rules a b) :
    ∃ i j, (entryNames rules)[i]? = some a ∧ (entryNames rules)[j]? = some b ∧
      j ∈ descentsOf blocks.flatten (.ofRules (placeRules 0 rules)) i := by
  -- the entry that a slot makes stands where the name of the slot does
  have hentry {rule : Rule} (hrule : rule ∈ rules) {slot : Slot} (hslot : slot ∈ rule.slots) :
      ∃ (i : Nat) (entry : Entry), (entryNames rules)[i]? = some slot.name ∧
        blocks.flatten[i]? = some entry ∧ rule.Makes (entryNames rules) slot entry := by
    obtain ⟨entry, hentry, hmakes⟩ := exists_mem_of_slot h hrule hslot
    obtain ⟨i, hi⟩ := List.mem_iff_getElem?.mp hentry
    refine ⟨i, entry, ?_, hi, hmakes⟩
    rw [← map_name_flatten_entries h, List.getElem?_map, hi, ← hmakes.name]
    rfl
  cases hab with
  | @location rule slot c sign _ hrule hslot hc hin =>
    obtain ⟨i, entry, hname, hi, hmakes⟩ := hentry hrule hslot
    have htarget : b ∈ entryNames rules :=
      (Condition.exists_resolve_iff.mp ⟨_, hmakes.tree⟩).locations sign b (.member hc hin)
    obtain ⟨j, hj⟩ := Condition.exists_idxOf?_iff.mpr htarget
    obtain ⟨hlt, hget, -⟩ := List.idxOf?_eq_some_iff.mp hj
    refine ⟨i, j, hname, by rw [List.getElem?_eq_getElem hlt, hget], ?_⟩
    rw [descentsOf, hi]
    exact (Condition.mem_descents_of_resolve hmakes.tree).mpr
      (.inl ⟨sign, b, .member hc hin, hj⟩)
  | @gear rule gear slot c sign argument flag power hrule hslot hc hin hgear hflag hpower =>
    obtain ⟨i, entry, hname, hi, hmakes⟩ := hentry hrule hslot
    obtain ⟨j, hj⟩ := exists_mem_placeRules_iff.mpr hgear
    refine ⟨i, j, hname, getElem?_of_mem_placeRules [] hj, ?_⟩
    rw [descentsOf, hi]
    exact (Condition.mem_descents_of_resolve hmakes.tree).mpr
      (.inr ⟨⟨sign, argument, .member hc hin⟩,
        mem_gear_ofRules.mpr ⟨gear, flag, power, hj, hflag, hpower⟩⟩)

/-- The descents of the entries of rules with different names pass their check exactly if no name
leads back to itself. -/
theorem checkDescents_eq_ok_iff_acyclic (hnodup : (entryNames rules).Nodup)
    (h : rules.mapM (Rule.entries (entryNames rules)) = .ok blocks) :
    checkDescents blocks.flatten (.ofRules (placeRules 0 rules)) = .ok () ↔
      ∀ name, ¬Relation.TransGen (Descends rules) name name := by
  have hlength : blocks.flatten.length = (entryNames rules).length := by
    rw [← map_name_flatten_entries h, List.length_map]
  have hlt : ∀ i j, Descent.Leads (descentsOf blocks.flatten (.ofRules (placeRules 0 rules))) i j →
      i < blocks.flatten.length ∧ j < blocks.flatten.length := by
    intro i j hj
    obtain ⟨a, b, ha, hb, -⟩ := descends_of_mem_descentsOf h hj
    rw [hlength]
    exact ⟨(List.getElem?_eq_some_iff.mp ha).1, (List.getElem?_eq_some_iff.mp hb).1⟩
  have hindex {i : Nat} {a : String} (hi : (entryNames rules)[i]? = some a) :
      (entryNames rules).idxOf a = i := by
    obtain ⟨hlt, rfl⟩ := List.getElem?_eq_some_iff.mp hi
    exact hnodup.idxOf_getElem i hlt
  rw [checkDescents_eq_ok_iff, cyclicNames?, Option.map_eq_none_iff,
    Descent.findCycle?_eq_none_iff hlt]
  constructor
  · intro hacyclic name hwalk
    refine hacyclic _ (Relation.TransGen.lift (entryNames rules).idxOf
      (fun a b hab => ?_) _ _ hwalk)
    obtain ⟨i, j, hi, hj, hmem⟩ := mem_descentsOf_of_descends h hab
    show (entryNames rules).idxOf b ∈ descentsOf _ _ ((entryNames rules).idxOf a)
    rwa [hindex hi, hindex hj]
  · intro hacyclic i hwalk
    refine hacyclic _ (Relation.TransGen.lift ((entryNames rules).getD · "")
      (fun i j hj => ?_) _ _ hwalk)
    obtain ⟨a, b, hi, hj, hab⟩ := descends_of_mem_descentsOf h hj
    show Descends rules ((entryNames rules).getD i "") ((entryNames rules).getD j "")
    simpa [List.getD_eq_getElem?_getD, hi, hj] using hab

end

end Reachability
