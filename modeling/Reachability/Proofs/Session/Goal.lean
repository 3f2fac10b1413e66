import Reachability.Proofs.Session.Coverage
import Reachability.Proofs.Table.Locations

/-!
# Session — completing a goal

The items of a goal are the item names of its locations, in any session (`mem_goalItems`).
Conditions look for a location under its item name only where it is an item, and else under its own
name.  So a complete goal and conditions that ask for all its locations are the same exactly if
these are the same names (`isComplete_of_compile`).  Each location of a goal is a root of marking
by its flags, and is marked under its item name if it is in scope (`goalItems_marked`).
-/

namespace Reachability

/-! ### Names and indices -/

namespace Table

variable {table : Table}

/-- Names are looked up by conditions as they are by queries. -/
theorem idxOf?_names (table : Table) (name : String) :
    table.names.idxOf? name = table.indexOf? name := by
  rw [names, List.idxOf?, List.findIdx?_map]
  rfl

end Table

/-- What belongs to a goal is a root. -/
theorem Entry.isRoot_of_belongsTo {entry : Entry} {goal : String} (options : Options)
    (h : entry.belongsTo goal = true) : entry.flags.isRoot options = true := by
  have hflag : ∃ flag ∈ Flags.rootFlags, entry.flags.contains flag = true := by
    rcases Bool.or_eq_true_iff.mp h with h | h
    · obtain ⟨argument, hargument, -⟩ := Option.map_eq_some_iff.mp (eq_of_beq h)
      exact ⟨.goal, by decide, Flags.contains_iff_get?.mpr ⟨argument, hargument⟩⟩
    · have h := eq_of_beq h
      unfold bossGoal? at h
      split at h
      · next hmech => exact ⟨.mechBoss, by decide, hmech⟩
      · split at h
        · next hfinal => exact ⟨.finalBoss, by decide, hfinal⟩
        · cases h
  rw [Flags.isRoot, List.any_eq_true.mpr hflag, Bool.true_or]

namespace Session

variable {session : Session} {has : Holdings} {goal : Goal}

/-! ### What a goal asks for -/

/-- Conditions find the items of all locations of a goal. -/
def ItemsHeld (session : Session) (goal : Goal) (has : Holdings) : Prop :=
  ∀ location ∈ goal.locations, ∃ tree, session.table.resolve (.item true location 1) = .ok tree ∧
    session.evaluate has tree = .ok true

/-- A condition that asks for an entry looks for the name that the entry is held under. -/
theorem evaluate_resolve_item (hsound : session.table.Sound) {entry : Entry}
    (hentry : entry ∈ session.table.entries) (quantity : UInt64) :
    ∃ tree, session.table.resolve (.item true entry.name quantity) = .ok tree ∧
      ∀ has, session.evaluate has tree = .ok (has (session.heldName entry) quantity) := by
  obtain ⟨i, hi⟩ := List.mem_iff_getElem?.mp hentry
  refine ⟨.item true i quantity, ?_, fun has => ?_⟩
  · rw [Table.resolve, Condition.resolve, Table.idxOf?_names, hsound.indexOf?_name hi]
  · have hholds : session.holds has i quantity = .ok (has (session.heldName entry) quantity) := by
      rw [holds, entryAt_eq_ok_iff.mpr hi]
      rfl
    simp only [evaluate, Condition.evaluate, meaning, hholds]
    simp [Functor.map, Except.map]

/-- The items of a goal are the item names of its locations. -/
theorem mem_goalItems (hsound : session.table.Sound) (hgoal : session.goal = some goal)
    {name : String} :
    name ∈ session.goalItems ↔ ∃ entry ∈ session.table.entries, entry.name ∈ goal.locations ∧
      entry.defaultItemName = name := by
  simp only [goalItems, hgoal, NameSet.mem_ofList, List.mem_filterMap, Option.map_eq_some_iff,
    hsound.entry?_eq_some_iff]
  constructor
  · rintro ⟨_, hlocation, entry, ⟨hentry, rfl⟩, hname⟩
    exact ⟨entry, hentry, hlocation, hname⟩
  · rintro ⟨entry, hentry, hlocation, hname⟩
    exact ⟨_, hlocation, entry, ⟨hentry, rfl⟩, hname⟩

/-- An entry is held under its item name if it has no other name or is an item. -/
theorem heldName_eq_defaultItemName_iff {entry : Entry} :
    session.heldName entry = entry.defaultItemName ↔
      entry.defaultItemName = entry.name ∨ (session.role entry).item = true := by
  unfold heldName
  split
  · next hitem => exact iff_of_true rfl (.inr hitem)
  · next hitem => exact eq_comm.trans (or_iff_left hitem).symm

theorem isComplete_iff : session.isComplete has = true ↔
    ∀ name ∈ session.goalItems, has name 1 = true :=
  List.all_eq_true

/-- The items of all locations are found if each is held under the name of its entry. -/
theorem itemsHeld_iff (hsound : session.table.Sound) (hgoal : goal ∈ session.table.goals) :
    session.ItemsHeld goal has ↔ ∀ name, (∃ entry ∈ session.table.entries,
      entry.name ∈ goal.locations ∧ session.heldName entry = name) → has name 1 = true := by
  constructor
  · rintro h _ ⟨entry, hentry, hlocation, rfl⟩
    obtain ⟨tree, htree, hvalue⟩ := h _ hlocation
    obtain ⟨tree', htree', hvalue'⟩ := evaluate_resolve_item hsound hentry 1
    obtain rfl := Except.ok.inj (htree.symm.trans htree')
    exact Except.ok.inj ((hvalue' has).symm.trans hvalue)
  · intro h location hlocation
    obtain ⟨entry, hentry, rfl⟩ := List.mem_map.mp (hsound.locations goal hgoal _ hlocation)
    obtain ⟨tree, htree, hvalue⟩ := evaluate_resolve_item hsound hentry 1
    exact ⟨tree, htree, by rw [hvalue has, h _ ⟨entry, hentry, hlocation, rfl⟩]⟩

/-- All states that hold the one names hold the others only if these are the same names. -/
theorem holds_all_iff {A B : String → Prop} :
    (∀ has : Holdings, (∀ name, A name → has name 1 = true) ↔ ∀ name, B name → has name 1 = true) ↔
      ∀ name, A name ↔ B name := by
  classical
  constructor
  · intro h name
    -- hold exactly the names of one side
    constructor
    · intro hname
      simpa using (h fun n _ => decide (B n)).mpr (fun _ => decide_eq_true) name hname
    · intro hname
      simpa using (h fun n _ => decide (A n)).mp (fun _ => decide_eq_true) name hname
  · intro h has
    simp only [h]

/-- Conditions can ask for every location of a goal.  That all of them are found is the same as
that the goal is complete, in all states, exactly if the item names of the locations are the names
that these are held under.  So it is if each location that has an item name of its own is an item in
the session. -/
theorem isComplete_of_compile {sheet : RuleSheet} {rewards : RewardSheet} {table : Table}
    (hcompile : Table.compile sheet rewards = .ok table) {options : Options} {session : Session}
    (hsession : table.session options = .ok session) {goal : Goal}
    (hgoal : session.goal = some goal) :
    (∀ has, ∀ location ∈ goal.locations, ∃ tree held,
        table.resolve (.item true location 1) = .ok tree ∧
        session.evaluate has tree = .ok held) ∧
      ((∀ has, session.isComplete has = true ↔ session.ItemsHeld goal has) ↔
        ∀ name, name ∈ session.goalItems ↔ ∃ entry ∈ table.entries,
          entry.name ∈ goal.locations ∧ session.heldName entry = name) ∧
      ((∀ entry ∈ table.entries, entry.name ∈ goal.locations →
          entry.defaultItemName = entry.name ∨ (session.role entry).item = true) →
        ∀ has, session.isComplete has = true ↔ session.ItemsHeld goal has) := by
  have hsound := Table.sound_of_compile hcompile
  have hmem := Table.mem_goals_of_session hsession hgoal
  obtain rfl := table_of_session hsession
  have hiff : (∀ has, session.isComplete has = true ↔ session.ItemsHeld goal has) ↔
      ∀ name, name ∈ session.goalItems ↔ ∃ entry ∈ session.table.entries,
        entry.name ∈ goal.locations ∧ session.heldName entry = name := by
    simp only [isComplete_iff, itemsHeld_iff hsound hmem]
    exact holds_all_iff
  refine ⟨fun has location hlocation => ?_, hiff, fun hnamed => hiff.mpr fun name => ?_⟩
  · obtain ⟨entry, hentry, rfl⟩ := List.mem_map.mp (hsound.locations goal hmem _ hlocation)
    obtain ⟨tree, htree, hvalue⟩ := evaluate_resolve_item hsound hentry 1
    exact ⟨tree, _, htree, hvalue has⟩
  · rw [mem_goalItems hsound hgoal]
    refine exists_congr fun entry => and_congr_right fun hentry =>
      and_congr_right fun hlocation => ?_
    rw [heldName_eq_defaultItemName_iff.mpr (hnamed entry hentry hlocation)]

/-- The boss of a melee class. -/
def bossSheet : RuleSheet where
  rules := [
    { name := "Boss", line := 1,
      flags := .ofList [(.location, none), (.item, some (.text "Trophy")), (.melee, none),
        (.goal, some (.text "fight"))] }]
  goals := [{ name := "fight", stop := 1, line := 2 }]

/-- The table of the boss. -/
def bossTable : Table where
  entries := [
    { name := "Boss", tree := .group true none [], itemName := some "Trophy", line := 1,
      copy := none,
      flags := .ofList [(.location, none), (.item, some (.text "Trophy")), (.melee, none),
        (.goal, some (.text "fight"))] }]
  goals := [{ name := "fight", stop := 1, locations := .ofList ["Boss"] }]
  labels := []
  rewards := []
  capabilities := {}

/-- For players of any class the boss is an item, and conditions that ask for it look for the trophy
that completes the goal. -/
theorem isComplete_of_compile_bossSheet : ∃ session goal,
    Table.compile bossSheet {} = .ok bossTable ∧ bossTable.session {} = .ok session ∧
      session.goal = some goal ∧ "Trophy" ∈ session.goalItems ∧
      ∀ has, session.isComplete has = true ↔ session.ItemsHeld goal has := by
  have hcompile : Table.compile bossSheet {} = .ok bossTable := rfl
  have hsession : bossTable.session {} =
      .ok ⟨bossTable, {}, some ⟨"fight", 1, .ofList ["Boss"]⟩⟩ := rfl
  refine ⟨_, _, hcompile, hsession, rfl, List.mem_cons_self, ?_⟩
  refine (isComplete_of_compile hcompile hsession rfl).2.2 fun entry hentry _ => ?_
  obtain rfl := List.mem_singleton.mp hentry
  exact .inr rfl

/-- For players of another class the boss is no item.  Conditions that ask for it look for the boss
itself, but the goal still takes the trophy. -/
theorem isComplete_of_compile_fails : ∃ session goal tree,
    Table.compile bossSheet {} = .ok bossTable ∧
      bossTable.session { classPreference := .ranged } = .ok session ∧
      session.goal = some goal ∧ goal.locations.names = ["Boss"] ∧
      bossTable.resolve (.item true "Boss" 1) = .ok tree ∧
      session.evaluate (Holdings.ofNames ["Boss"]) tree = .ok true ∧
      session.isComplete (Holdings.ofNames ["Boss"]) = false :=
  ⟨⟨bossTable, { classPreference := .ranged }, some ⟨"fight", 1, .ofList ["Boss"]⟩⟩, _, _, rfl, rfl,
    rfl, rfl, rfl, rfl, rfl⟩

/-! ### Goals and marking -/

/-- The item name of every location of the goal that is in scope is marked.  So all items of the
goal are, if none of its locations comes after it. -/
theorem goalItems_marked {sheet : RuleSheet} {rewards : RewardSheet} {table : Table}
    (hcompile : Table.compile sheet rewards = .ok table) {options : Options} {session : Session}
    (hsession : table.session options = .ok session) {goal : Goal}
    (hgoal : session.goal = some goal) :
    ∃ marked, session.progression = .ok marked ∧
      (∀ i < goal.stop, ∀ entry, table.entries[i]? = some entry → entry.name ∈ goal.locations →
        entry.defaultItemName ∈ session.goalItems ∧ entry.defaultItemName ∈ marked) ∧
      ((∀ i entry, table.entries[i]? = some entry → entry.name ∈ goal.locations → i < goal.stop) →
        ∀ name ∈ session.goalItems, name ∈ marked) := by
  have hsound := Table.sound_of_compile hcompile
  have hmem := Table.mem_goals_of_session hsession hgoal
  obtain rfl := table_of_session hsession
  obtain ⟨marked, hmarked⟩ := markInto_eq_ok hsound (hsound.scope_le hsession) ∅
  have hscope : session.scope = goal.stop := by rw [scope, hgoal]
  have hfound : ∀ i < goal.stop, ∀ entry, session.table.entries[i]? = some entry →
      entry.name ∈ goal.locations → entry.defaultItemName ∈ marked := by
    intro i hi entry hentry hlocation
    obtain ⟨other, hother, hbelongs, hname⟩ :=
      (Table.mem_locations_of_compile hcompile hmem).mp hlocation
    -- names tell entries apart
    obtain rfl : other = entry := by
      have h := hsound.entry?_eq_some_iff.mpr ⟨hother, hname⟩
      rw [hsound.entry?_eq_some_iff.mpr ⟨List.mem_of_getElem? hentry, rfl⟩] at h
      exact (Option.some.inj h).symm
    have hroot := Entry.isRoot_of_belongsTo session.options hbelongs
    exact mem_markInto_of_assured hmarked (.root (hscope ▸ hi) hentry hroot)
  refine ⟨marked, hmarked, fun i hi entry hentry hlocation => ⟨?_, hfound i hi entry hentry
    hlocation⟩, fun hbefore name hname => ?_⟩
  · exact (mem_goalItems hsound hgoal).mpr ⟨entry, List.mem_of_getElem? hentry, hlocation, rfl⟩
  · obtain ⟨entry, hentry, hlocation, rfl⟩ := (mem_goalItems hsound hgoal).mp hname
    obtain ⟨i, hi⟩ := List.mem_iff_getElem?.mp hentry
    exact hfound i (hbefore i entry hi hlocation) entry hi hlocation

/-- The trophy is marked. -/
theorem goalItems_marked_bossSheet : ∃ session marked,
    Table.compile bossSheet {} = .ok bossTable ∧ bossTable.session {} = .ok session ∧
      session.progression = .ok marked ∧ session.goalItems.names = ["Trophy"] ∧
      ∀ name ∈ session.goalItems, name ∈ marked := by
  have hcompile : Table.compile bossSheet {} = .ok bossTable := rfl
  have hsession : bossTable.session {} =
      .ok ⟨bossTable, {}, some ⟨"fight", 1, .ofList ["Boss"]⟩⟩ := rfl
  obtain ⟨marked, hmarked, -, hall⟩ := goalItems_marked hcompile hsession rfl
  refine ⟨_, marked, hcompile, hsession, hmarked, rfl, hall fun i entry hentry _ => ?_⟩
  exact (List.getElem?_eq_some_iff.mp hentry).1

/-- A boss that comes after its goal. -/
def lateSheet : RuleSheet where
  rules := [{ name := "Boss", flags := .ofList [(.goal, some (.text "fight"))], line := 2 }]
  goals := [{ name := "fight", stop := 0, line := 1 }]

/-- The boss belongs to the goal, but its item is not marked because it is out of scope. -/
theorem goalItems_marked_fails : ∃ table session marked,
    Table.compile lateSheet {} = .ok table ∧ table.session {} = .ok session ∧
      session.goalItems.names = ["Boss"] ∧ session.progression = .ok marked ∧
      marked.names = [] :=
  ⟨_, _, _, rfl, rfl, rfl, rfl, rfl⟩

end Session

end Reachability
