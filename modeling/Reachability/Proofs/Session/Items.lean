import Reachability.Proofs.Session.Evaluate
import Reachability.Proofs.Table.Accepted

/-!
# Session — the names of items

The compiler looks for item names that are claimed twice among the rules with a flag that
`Flag.producesItem` lists.  Three flags that make an item are not listed
(`Flag.exists_item_mem_effects_iff`), and the copies of a bank share the name of their rule.  So two
items of a session can have one name, and an item that of a reward; `Session.items_of_compile` says
that nothing else brings this about.
-/

namespace Reachability

namespace Flag

/-- The flags that make their rule an item under some options although they are not listed: those
of characters that are randomized, and of Journey mode. -/
def unlistedItems : List Flag := [.npc, .guide, .journey]

@[simp] theorem mem_onlyWhen {on : Bool} {effect effect' : Effect} :
    effect ∈ onlyWhen on effect' ↔ on = true ∧ effect = effect' := by
  by_cases h : on = true <;> simp [onlyWhen, h]

@[simp] theorem item_not_mem_locationOrDispose {on : Bool} :
    Effect.item ∉ locationOrDispose on := by
  by_cases h : on = true <;> simp [locationOrDispose, h]

/-- The flags that make an item under some options are those listed and three others. -/
theorem exists_item_mem_effects_iff {flag : Flag} :
    (∃ options, Effect.item ∈ flag.effects options) ↔
      flag.producesItem = true ∨ flag ∈ unlistedItems := by
  constructor
  · rintro ⟨options, h⟩
    cases flag <;> simp [effects] at h <;> simp [producesItem, unlistedItems]
  · intro h
    by_cases hlock : flag = .notBiomeLock
    · subst hlock
      exact ⟨{ biomeLocks := false }, List.mem_singleton_self _⟩
    · -- with all else switched on, every other flag of an item makes one
      refine ⟨{
        weatherLocks := true, shopLoot := true, enemyCommonDrops := 1, enemyRareDrops := 1,
        enemyInvasionDrops := 1, enemyMinibossDrops := 1, grapplingHook := true,
        randomizeNpcs := true, randomizeGuide := true }, ?_⟩
      cases flag <;> simp [producesItem, unlistedItems] at h hlock <;> simp [effects]

end Flag

/-- An item through none of the listed flags, but through one that is not listed. -/
def Entry.Unlisted (entry : Entry) : Prop :=
  entry.flags.any Flag.producesItem = false ∧
    ∃ flag ∈ Flag.unlistedItems, entry.flags.contains flag = true

/-- An entry that is an item has a listed flag or is an unlisted item. -/
theorem Entry.listed_or_unlisted {options : Options} {entry : Entry}
    (h : (entry.role options).item = true) :
    entry.flags.any Flag.producesItem = true ∨ entry.Unlisted := by
  obtain ⟨heffect, -⟩ := Bool.and_eq_true_iff.mp h
  obtain ⟨⟨flag, argument⟩, hmem, hflag⟩ := List.any_eq_true.mp heffect
  by_cases hlisted : entry.flags.any Flag.producesItem = true
  · exact .inl hlisted
  · rw [Bool.not_eq_true] at hlisted
    refine .inr ⟨hlisted, flag, ?_, Flags.contains_iff.mpr (List.mem_map_of_mem hmem)⟩
    have hitem : Effect.item ∈ flag.effects options := List.contains_iff_mem.mp hflag
    refine (Flag.exists_item_mem_effects_iff.mp ⟨options, hitem⟩).resolve_left ?_
    rw [Bool.not_eq_true]
    exact Bool.eq_false_iff.mpr (List.any_eq_false.mp hlisted _ hmem)

/-! ### The rules of items -/

namespace Rule

variable {names : List String} {rule : Rule} {slot : Slot} {entry : Entry}

/-- A slot of a rule has the flags of the rule or none. -/
theorem flags_of_mem_slots (h : slot ∈ rule.slots) : slot.flags = rule.flags ∨ slot.flags = ∅ := by
  unfold slots at h
  split at h
  · rcases List.mem_cons.mp h with rfl | h
    · exact .inr rfl
    · obtain ⟨n, -, rfl⟩ := List.mem_map.mp h
      exact .inl rfl
  · rw [List.mem_singleton.mp h]
    exact .inl rfl

/-- A rule that is no bank has one slot. -/
theorem eq_of_mem_slots {slot' : Slot} (hbank : rule.isBank = false) (h : slot ∈ rule.slots)
    (h' : slot' ∈ rule.slots) : slot = slot' := by
  simp only [slots, hbank, Bool.false_eq_true, if_false, List.mem_singleton] at h h'
  rw [h, h']

/-- An entry with any flag has the flags of its rule. -/
theorem Makes.flags_eq (h : rule.Makes names slot entry) {flag : Flag}
    (hflag : entry.flags.contains flag = true) : entry.flags = rule.flags := by
  rcases flags_of_mem_slots h.mem with hflags | hflags
  · rw [h.flags, hflags]
  · rw [h.flags, hflags] at hflag
    cases hflag

/-- An entry with a listed flag is handed out under the item name of its rule. -/
theorem Makes.itemName?_of_listed (h : rule.Makes names slot entry)
    (hlisted : entry.flags.any Flag.producesItem = true) :
    rule.itemName? = some entry.defaultItemName := by
  obtain ⟨⟨flag, argument⟩, hmem, -⟩ := List.any_eq_true.mp hlisted
  rw [h.flags_eq (Flags.contains_iff.mpr (List.mem_map_of_mem hmem))] at hlisted
  have hsome : rule.itemName?.isSome = true := by
    rw [itemName?, if_pos hlisted]
    rfl
  obtain ⟨name, hname⟩ := Option.isSome_iff_exists.mp hsome
  rw [Entry.defaultItemName, h.itemName, hname, Option.getD_some]

/-- An unlisted item is handed out under its own name. -/
theorem Makes.defaultItemName_of_unlisted (h : rule.Makes names slot entry)
    (hunlisted : entry.Unlisted) : entry.defaultItemName = entry.name := by
  obtain ⟨hlisted, flag, -, hflag⟩ := hunlisted
  rw [h.flags_eq hflag] at hlisted
  have hnone : rule.itemName? = none := by
    rw [itemName?, if_neg (by simp [hlisted])]
  rw [Entry.defaultItemName, h.itemName, hnone, Option.getD_none]

/-- No two rules claim the same item if no item name is claimed twice. -/
theorem eq_of_itemName? {rules : List Rule} (hnodup : (rules.filterMap itemName?).Nodup)
    {rule rule' : Rule} (h : rule ∈ rules) (h' : rule' ∈ rules) {name : String}
    (hname : rule.itemName? = some name) (hname' : rule'.itemName? = some name) :
    rule = rule' := by
  by_contra hne
  have hapart := List.pairwise_filterMap.mp hnodup
  have : Std.Symm fun r r' : Rule => ∀ b, r.itemName? = some b → ∀ b', r'.itemName? = some b' →
      b ≠ b' :=
    ⟨fun r r' hr b hb b' hb' => (hr b' hb' b hb).symm⟩
  exact hapart.forall h h' hne name hname name hname' rfl

end Rule

namespace Session

variable {session : Session}

/-- The goal of a session changes nothing about which entries are items. -/
theorem item_role (entry : Entry) :
    (session.role entry).item = (entry.role session.options).item := by
  unfold role
  split <;> rfl

/-- Two items of a session with the same name are copies of one bank, or exactly one of them is an
item through no listed flag; and an item that is called like a reward is one through no listed
flag.  Apart from that, items have names of their own. -/
theorem items_of_compile {sheet : RuleSheet} {rewards : RewardSheet} {table : Table}
    (hcompile : Table.compile sheet rewards = .ok table) {options : Options} {session : Session}
    (hsession : table.session options = .ok session) :
    (∀ first ∈ table.entries, ∀ second ∈ table.entries, first.name ≠ second.name →
        (session.role first).item = true → (session.role second).item = true →
        first.defaultItemName = second.defaultItemName →
          (∃ rule ∈ sheet.rules, rule.isBank = true ∧ first.name ∈ rule.slots.map Slot.name ∧
            second.name ∈ rule.slots.map Slot.name) ∨
          (first.Unlisted ↔ ¬second.Unlisted)) ∧
      ∀ entry ∈ table.entries, (session.role entry).item = true →
        ∀ reward ∈ table.rewards, entry.defaultItemName = reward.name → entry.Unlisted := by
  have hnodup := Table.nodup_itemNames hcompile
  obtain ⟨hrules, -, hapart⟩ := List.nodup_append.mp hnodup
  have hrewards : table.rewards = rewards.rewards := by
    obtain ⟨_, -, rfl, -⟩ := Table.compile_spec hcompile
    rfl
  constructor
  · intro first hfirst second hsecond hdiffer hitem hitem' hname
    rw [item_role] at hitem hitem'
    obtain ⟨rule, hrule, slot, hmakes⟩ := Table.exists_makes hcompile hfirst
    obtain ⟨rule', hrule', slot', hmakes'⟩ := Table.exists_makes hcompile hsecond
    by_cases hunlisted : first.Unlisted <;> by_cases hunlisted' : second.Unlisted
    · -- both would be handed out under their own names
      rw [hmakes.defaultItemName_of_unlisted hunlisted,
        hmakes'.defaultItemName_of_unlisted hunlisted'] at hname
      exact (hdiffer hname).elim
    · exact .inr (iff_of_true hunlisted hunlisted')
    · exact .inr (iff_of_false hunlisted (not_not.mpr hunlisted'))
    · -- both claim the name for their rules
      have hclaim := hmakes.itemName?_of_listed
        ((Entry.listed_or_unlisted hitem).resolve_right hunlisted)
      have hclaim' := hmakes'.itemName?_of_listed
        ((Entry.listed_or_unlisted hitem').resolve_right hunlisted')
      obtain rfl := Rule.eq_of_itemName? hrules hrule hrule' hclaim (hname ▸ hclaim')
      refine .inl ⟨rule, hrule, ?_, ?_, ?_⟩
      · by_contra hbank
        rw [Bool.not_eq_true] at hbank
        refine hdiffer ?_
        rw [hmakes.name, hmakes'.name, Rule.eq_of_mem_slots hbank hmakes.mem hmakes'.mem]
      · exact hmakes.name ▸ List.mem_map_of_mem hmakes.mem
      · exact hmakes'.name ▸ List.mem_map_of_mem hmakes'.mem
  · intro entry hentry hitem reward hreward hname
    rw [item_role] at hitem
    obtain ⟨rule, hrule, slot, hmakes⟩ := Table.exists_makes hcompile hentry
    refine (Entry.listed_or_unlisted hitem).resolve_left fun hlisted => ?_
    have hclaim : entry.defaultItemName ∈ sheet.rules.filterMap Rule.itemName? :=
      List.mem_filterMap.mpr ⟨rule, hrule, hmakes.itemName?_of_listed hlisted⟩
    rw [hrewards] at hreward
    exact hapart _ hclaim _ (List.mem_map_of_mem hreward) hname

/-- The merchant is a character, and the trader sells a merchant. -/
def merchantSheet : RuleSheet where
  rules := [
    { name := "Merchant", flags := .ofList [(.npc, none)], line := 1 },
    { name := "Trader", flags := .ofList [(.item, some (.text "Merchant"))], line := 2 }]

/-- The table of the merchant and the trader. -/
def merchantTable : Table where
  entries := [
    { name := "Merchant", flags := .ofList [(.npc, none)], tree := .group true none [],
      itemName := none, line := 1, copy := none },
    { name := "Trader", flags := .ofList [(.item, some (.text "Merchant"))],
      tree := .group true none [], itemName := some "Merchant", line := 2, copy := none }]
  goals := []
  labels := []
  rewards := []
  capabilities := { npcs := [0] }

/-- With characters randomized, the merchant and the trader are items with one name, and one of them
is an unlisted item. -/
theorem items_of_compile_merchantSheet : ∃ session,
    Table.compile merchantSheet {} = .ok merchantTable ∧
      merchantTable.session { randomizeNpcs := true } = .ok session ∧
      ∃ merchant trader, merchantTable.entries = [merchant, trader] ∧
        merchant.defaultItemName = trader.defaultItemName ∧
        (merchant.Unlisted ↔ ¬trader.Unlisted) := by
  let session : Session := ⟨merchantTable, { randomizeNpcs := true }, none⟩
  have hcompile : Table.compile merchantSheet {} = .ok merchantTable := rfl
  have hsession : merchantTable.session { randomizeNpcs := true } = .ok session := rfl
  refine ⟨session, hcompile, hsession, _, _, rfl, rfl, ?_⟩
  have hdiffer : "Merchant" ≠ "Trader" := by simp
  have hbank : ∀ rule ∈ merchantSheet.rules, rule.isBank = false := by decide
  rcases (items_of_compile hcompile hsession).1 _ List.mem_cons_self _
    (List.mem_cons_of_mem _ List.mem_cons_self) hdiffer rfl rfl rfl with ⟨rule, hrule, htrue, -⟩ | h
  · rw [hbank rule hrule] at htrue
    cases htrue
  · exact h

/-- The compiler accepts two rules which are both items with one name if characters are
randomized. -/
theorem items_of_compile_fails : ∃ session first second,
    Table.compile merchantSheet {} = .ok merchantTable ∧
      merchantTable.session { randomizeNpcs := true } = .ok session ∧
      first ∈ merchantTable.entries ∧ second ∈ merchantTable.entries ∧
      first.name ≠ second.name ∧
      (session.role first).item = true ∧ (session.role second).item = true ∧
      first.defaultItemName = second.defaultItemName := by
  have hdiffer : "Merchant" ≠ "Trader" := by simp
  exact ⟨⟨merchantTable, { randomizeNpcs := true }, none⟩, _, _, rfl, rfl, List.mem_cons_self,
    List.mem_cons_of_mem _ List.mem_cons_self, hdiffer, rfl, rfl, rfl⟩

end Session

end Reachability
