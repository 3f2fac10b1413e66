import Reachability.Inventory
import Reachability.Proofs.Session.Marking

/-!
# Session — holding more

Where nothing is negated but calls that echo an option, a rule that can be reached is still reached
with more held (`Session.canReach_mono`).  Head counts, bonuses and powers go up with what is held
(`relates_countHeld`, `sublist_heldBonuses`, `relates_holdsPower`), and groups, locations and gear
pass on that no yes turns into a no (`relates_evaluate`).  The two evaluations may stop at different
conditions, so they are related by what they yield and not step by step; that both yield something
is known of every table that is read.
-/

namespace Reachability

namespace Condition

/-- Whatever stands inside is positive, but calls that echo an option may be negated. -/
def Positive (tree : Tree) : Prop :=
  ∀ c, Inside c tree → c.sign = true ∨
    ∃ sign function argument, c = .call sign function argument ∧ function.takesNumber = false

section
variable {sign : Bool} {operator : Option Operator}

@[simp] theorem positive_item {target : Nat} {quantity : UInt64} :
    Positive (.item sign target quantity) ↔ sign = true := by
  constructor
  · intro h
    rcases h _ .self with h | ⟨_, _, _, ⟨⟩, _⟩
    exact h
  · rintro h _ ⟨⟩
    exact .inl h

@[simp] theorem positive_location {target : Nat} :
    Positive (.location sign target) ↔ sign = true := by
  constructor
  · intro h
    rcases h _ .self with h | ⟨_, _, _, ⟨⟩, _⟩
    exact h
  · rintro h _ ⟨⟩
    exact .inl h

@[simp] theorem positive_call {function : Builtin} {argument : Option Argument} :
    Positive (.call sign function argument) ↔ sign = true ∨ function.takesNumber = false := by
  constructor
  · intro h
    rcases h _ .self with h | ⟨_, _, _, ⟨⟩, h⟩
    · exact .inl h
    · exact .inr h
  · rintro h _ ⟨⟩
    exact h.imp_right fun h => ⟨_, _, _, rfl, h⟩

/-- A group is positive if its sign is and its members are. -/
@[simp] theorem positive_group {members : List Tree} :
    Positive (.group sign operator members) ↔ sign = true ∧ ∀ c ∈ members, Positive c := by
  constructor
  · intro h
    refine ⟨?_, fun c hc d hin => h d (.member hc hin)⟩
    rcases h _ .self with h | ⟨_, _, _, ⟨⟩, _⟩
    exact h
  · rintro ⟨hsign, hmembers⟩ d hin
    cases hin with
    | self => exact .inl hsign
    | member hc hin => exact hmembers _ hc d hin

end

end Condition

/-! ### Capacities -/

/-- The best of more bonuses, or of a better start, is at least as good. -/
theorem foldl_best_le {fewer more : List UInt64} (h : fewer.Sublist more) {low high : UInt64}
    (hstart : low ≤ high) :
    fewer.foldl (fun best bonus => max best (Capped.add bonus 1)) low ≤
      more.foldl (fun best bonus => max best (Capped.add bonus 1)) high := by
  induction h generalizing low high with
  | slnil => exact hstart
  | @cons fewer more bonus _ ih =>
    rw [List.foldl_cons]
    refine ih ?_
    rw [UInt64.le_iff_toNat_le] at hstart ⊢
    rw [UInt64.toNat_max]
    omega
  | @cons_cons fewer more bonus _ ih =>
    rw [List.foldl_cons, List.foldl_cons]
    refine ih ?_
    rw [UInt64.le_iff_toNat_le] at hstart ⊢
    rw [UInt64.toNat_max, UInt64.toNat_max]
    omega

/-- The capped sum of more bonuses is at least as large. -/
theorem Capped.sum_le {fewer more : List UInt64} (h : fewer.Sublist more) :
    Capped.sum fewer ≤ Capped.sum more := by
  induction h with
  | slnil => exact UInt64.le_refl 0
  | @cons fewer more bonus _ ih =>
    rw [UInt64.le_iff_toNat_le] at ih ⊢
    have hcap := Capped.toNat_le_cap (Capped.sum more)
    rw [Capped.sum.eq_def (bonus :: more), Capped.toNat_add]
    omega
  | @cons_cons fewer more bonus _ ih =>
    rw [UInt64.le_iff_toNat_le] at ih ⊢
    rw [Capped.sum, Capped.sum, Capped.toNat_add, Capped.toNat_add]
    omega

theorem minionCapacity_le {armor armor' accessories accessories' : List UInt64}
    (harmor : armor.Sublist armor') (haccessories : accessories.Sublist accessories') :
    minionCapacity armor accessories ≤ minionCapacity armor' accessories' := by
  have hbest := foldl_best_le harmor (UInt64.le_refl 1)
  have hsum := Capped.sum_le haccessories
  rw [UInt64.le_iff_toNat_le] at hbest hsum
  rw [minionCapacity, minionCapacity, UInt64.le_iff_toNat_le, Capped.toNat_add, Capped.toNat_add]
  omega

namespace Session

variable {session : Session} {has more : Holdings} {enter enter' : Nat → Except QueryError Bool}

/-! ### What is held -/

/-- Two choices are related if their alternatives are and no yes turns into a no. -/
theorem ite_of_le {α : Type} {r : α → α → Prop} {held held' : Bool} (hheld : held ≤ held')
    {a a' b b' : α} (hyes : r a a') (hno : r b b') (hmore : r b a') :
    r (if held then a else b) (if held' then a' else b') := by
  cases held with
  | false =>
    cases held' with
    | false => exact hno
    | true => exact hmore
  | true =>
    rw [Bool.le_iff_imp.mp hheld rfl]
    exact hyes

section
variable (hmore : ∀ name count, has name count = true → more name count = true)
include hmore

theorem relates_holds (index : Nat) (quantity : UInt64) :
    Except.Relates (· ≤ ·) (session.holds has index quantity)
      (session.holds more index quantity) := by
  refine Except.relates_bind fun entry => Except.relates_ok ?_
  exact Bool.le_iff_imp.mpr (hmore (session.heldName entry) quantity)

theorem relates_countHeld (indices : List Nat) :
    Except.Relates (· ≤ ·) (session.countHeld has indices) (session.countHeld more indices) := by
  induction indices with
  | nil => exact Except.relates_ok (Nat.le_refl 0)
  | cons index rest ih =>
    refine (relates_holds hmore index 1).bind fun held held' hheld => ?_
    refine ih.bind fun count count' hcount => Except.relates_ok ?_
    exact ite_of_le hheld (Nat.succ_le_succ hcount) hcount (Nat.le_succ_of_le hcount)

theorem sublist_heldBonuses (bonuses : List (Nat × UInt64)) :
    Except.Relates List.Sublist (session.heldBonuses has bonuses)
      (session.heldBonuses more bonuses) := by
  induction bonuses with
  | nil => exact Except.relates_ok (List.Sublist.refl [])
  | cons bonus rest ih =>
    refine (relates_holds hmore bonus.1 1).bind fun held held' hheld => ?_
    refine ih.bind fun found found' hfound => Except.relates_ok ?_
    exact ite_of_le hheld (hfound.cons_cons bonus.2) hfound (hfound.cons bonus.2)

theorem relates_holdsPower (n : UInt64) (tools : List (Nat × UInt64)) :
    Except.Relates (· ≤ ·) (session.holdsPower has n tools) (session.holdsPower more n tools) := by
  refine Except.relates_anyM fun tool _ => ?_
  dsimp only
  split
  · exact relates_holds hmore tool.1 1
  · exact Except.relates_ok (Bool.le_refl false)

/-! ### What is entered -/

omit hmore in
theorem relates_gearAdequate {n : UInt64}
    (henter : ∀ index ∈ session.table.capabilities.gear,
      Except.Relates (· ≤ ·) (enter index) (enter' index)) :
    Except.Relates (· ≤ ·) (session.gearAdequate enter n) (session.gearAdequate enter' n) := by
  refine Except.relates_allM fun gear hgear => Except.relates_anyM fun group hgroup =>
    Except.relates_bind fun adequate => ?_
  cases adequate with
  | true => exact henter group.1 (List.mem_map_of_mem (List.mem_flatten_of_mem hgear hgroup))
  | false => exact Except.relates_ok (Bool.le_refl false)

omit hmore in
/-- What echoes an option answers the same whatever is held. -/
theorem call_eq_of_not_takesNumber {function : Builtin} (h : function.takesNumber = false)
    {argument : Option Argument} :
    session.call has enter function argument = session.call more enter' function argument := by
  cases function with
  | npc | mechBoss | pickaxe | hammer | minions | gearPower => cases h
  | _ => rfl

/-- Every function answers at least as much. -/
theorem relates_call {function : Builtin} {argument : Option Argument}
    (henter : function = .gearPower → ∀ index ∈ session.table.capabilities.gear,
      Except.Relates (· ≤ ·) (enter index) (enter' index)) :
    Except.Relates (· ≤ ·) (session.call has enter function argument)
      (session.call more enter' function argument) := by
  have hcount : ∀ indices (n : UInt64), Except.Relates (· ≤ ·)
      ((fun count => decide (n.toNat ≤ count)) <$> session.countHeld has indices)
      ((fun count => decide (n.toNat ≤ count)) <$> session.countHeld more indices) :=
    fun indices n => (relates_countHeld hmore indices).map fun count count' hle => by
      simpa [Bool.le_iff_imp] using fun h => Nat.le_trans h hle
  cases function with
  | npc => exact Except.relates_bind fun n => hcount _ n
  | mechBoss => exact Except.relates_bind fun n => hcount _ n
  | pickaxe => exact Except.relates_bind fun n => relates_holdsPower hmore n _
  | hammer => exact Except.relates_bind fun n => relates_holdsPower hmore n _
  | minions =>
    refine Except.relates_bind fun n => ?_
    refine (sublist_heldBonuses hmore _).bind fun armor armor' harmor => ?_
    refine (sublist_heldBonuses hmore _).bind fun accessories accessories' haccessories => ?_
    have hcapacity := minionCapacity_le harmor haccessories
    refine Except.relates_ok ?_
    simpa [Bool.le_iff_imp] using fun h => UInt64.le_trans h hcapacity
  | gearPower =>
    refine Except.relates_bind fun n => ?_
    split
    · exact relates_gearAdequate (henter rfl)
    · exact Except.relates_ok (Bool.le_refl true)
  | _ => exact Except.relates_refl Bool.le_refl _

/-- A positive tree has at least the value, if that holds of the trees it enters. -/
theorem relates_evaluate {tree : Tree} (hpositive : tree.Positive)
    (henter : ∀ index ∈ tree.descents session.table.capabilities.gear,
      Except.Relates (· ≤ ·) (enter index) (enter' index)) :
    Except.Relates (· ≤ ·) (tree.evaluate (session.meaning has enter))
      (tree.evaluate (session.meaning more enter')) := by
  have hsign : ∀ {x y : Except QueryError Bool}, Except.Relates (· ≤ ·) x y →
      Except.Relates (· ≤ ·) ((true == ·) <$> x) ((true == ·) <$> y) :=
    fun h => h.map fun a b hab => by simpa using hab
  induction tree using Condition.induct with
  | item sign target quantity =>
    obtain rfl := Condition.positive_item.mp hpositive
    exact hsign (relates_holds hmore target quantity)
  | location sign target =>
    obtain rfl := Condition.positive_location.mp hpositive
    exact hsign (henter target List.mem_cons_self)
  | call sign function argument =>
    rcases Condition.positive_call.mp hpositive with rfl | htoggle
    · refine hsign (relates_call hmore ?_)
      rintro rfl
      rwa [Condition.descents, if_pos rfl] at henter
    · have hsame : session.call has enter function argument =
          session.call more enter' function argument := call_eq_of_not_takesNumber htoggle
      simp only [Condition.evaluate, meaning, hsame]
      exact Except.relates_refl Bool.le_refl _
  | group sign operator members ih =>
    obtain ⟨rfl, hall⟩ := Condition.positive_group.mp hpositive
    have hmembers : ∀ c ∈ members, Except.Relates (· ≤ ·)
        (c.evaluate (session.meaning has enter)) (c.evaluate (session.meaning more enter')) :=
      fun c hc => ih c hc (hall c hc) fun index hindex =>
        henter index (Condition.mem_descents_group.mpr ⟨c, hc, hindex⟩)
    cases operator with
    | none =>
      rcases members with _ | ⟨c, _ | ⟨d, rest⟩⟩
      · exact Except.relates_refl Bool.le_refl _
      · exact hsign (hmembers c List.mem_cons_self)
      · -- several conditions without an operator have no value
        intro a b ha
        cases ha
    | some operator =>
      cases operator with
      | and =>
        simp only [Condition.evaluate, Condition.evaluateAll_eq_allM]
        exact hsign (Except.relates_allM hmembers)
      | or =>
        simp only [Condition.evaluate, Condition.evaluateAny_eq_anyM]
        exact hsign (Except.relates_anyM hmembers)

/-- Entering an entry answers at least as much if all trees that may be entered are positive. -/
theorem relates_enter (hsound : session.table.Sound) {start : Nat}
    (hstart : start < session.table.entries.length)
    (hpositive : ∀ i entry, session.table.MayEnter start i →
      session.table.entries[i]? = some entry → entry.tree.Positive) :
    Except.Relates (· ≤ ·) (session.enter has start) (session.enter more start) := by
  refine of_mayEnter (P := fun depth i => Except.Relates (· ≤ ·)
    (session.enterWithin has depth i) (session.enterWithin more depth i)) hsound
    (fun depth i hi hmay h => ?_) hstart
  rw [enterWithin, enterWithin, entryAt_eq_ok hi]
  exact relates_evaluate hmore (hpositive i _ hmay (List.getElem?_eq_getElem hi)) h

end

end Session

/-- Whatever is held is still held with more copies of one item. -/
theorem Inventory.holdings_add {inventory : Inventory} (name : String) (count : UInt64)
    {held : String} {quantity : UInt64} (h : inventory.holdings held quantity = true) :
    (inventory.add name count).holdings held quantity = true := by
  simp only [holdings, decide_eq_true_eq, count_add] at h ⊢
  by_cases hsame : held = name
  · subst hsame
    rw [if_pos rfl]
    rw [UInt64.le_iff_toNat_le] at h ⊢
    have hcap := Capped.toNat_le_cap quantity
    rw [Capped.toNat_add]
    omega
  · rwa [if_neg hsame]

/-- The inventory with more copies of some items. -/
def Inventory.addAll (inventory : Inventory) (items : List (String × UInt64)) : Inventory :=
  items.foldl (fun inventory item => inventory.add item.1 item.2) inventory

/-- Whatever is held is still held with more copies of some items. -/
theorem Inventory.holdings_addAll {inventory : Inventory} {items : List (String × UInt64)}
    {held : String} {quantity : UInt64} (h : inventory.holdings held quantity = true) :
    (inventory.addAll items).holdings held quantity = true := by
  induction items generalizing inventory with
  | nil => exact h
  | cons item rest ih => exact ih (holdings_add item.1 item.2 h)

namespace Session

/-- Holding more keeps what can be reached.  Let every tree that evaluating a rule may enter be
positive.  If the rule can be reached, it can be reached with anything held that holds as much, in
particular with any items added to an inventory. -/
theorem canReach_mono {table : Table} (htable : table.IsRead) {options : Options}
    {session : Session} (hsession : table.session options = .ok session) {name : String}
    {start : Nat} (hname : table.indexOf? name = some start)
    (hpositive : ∀ i entry, table.MayEnter start i → table.entries[i]? = some entry →
      entry.tree.Positive) :
    (∀ has more : Holdings, (∀ name count, has name count = true → more name count = true) →
        session.canReach has name = .ok true → session.canReach more name = .ok true) ∧
      ∀ (inventory : Inventory) (items : List (String × UInt64)),
        session.canReach inventory.holdings name = .ok true →
          session.canReach (inventory.addAll items).holdings name = .ok true := by
  obtain ⟨hsound, hjoined⟩ := htable.sound
  obtain rfl := table_of_session hsession
  have hstart := Table.lt_of_indexOf? hname
  have hmono : ∀ has more : Holdings,
      (∀ name count, has name count = true → more name count = true) →
      session.canReach has name = .ok true → session.canReach more name = .ok true := by
    intro has more hmore hreached
    rw [canReach_eq_enter hsound hname] at hreached ⊢
    obtain ⟨reached, hok⟩ : ∃ reached, session.enter more start = .ok reached := by
      refine (failsOnly_enter hsound (fun i hi _ count hbare => ?_) hstart).exists_ok
      exact Condition.joined_iff.mp (hjoined _ (List.getElem_mem hi)) count hbare
    have hle := relates_enter hmore hsound hstart hpositive true reached hreached hok
    rw [hok, Bool.le_iff_imp.mp hle rfl]
  exact ⟨hmono, fun inventory items =>
    hmono _ _ fun _ _ hheld => Inventory.holdings_addAll hheld⟩

/-- The camp is for play without Calamity, and the cave beyond it takes a pickaxe. -/
def campTable : Table where
  entries := [
    { name := "Camp", flags := .ofList [(.location, none)],
      tree := .group true (some .and) [.item true 2 2, .call false .calamity none],
      itemName := none, line := 1, copy := none },
    { name := "Cave", flags := .ofList [(.location, none)],
      tree := .group true (some .and)
        [.location true 0, .call true .pickaxe (some (.number 35))],
      itemName := none, line := 2, copy := none },
    { name := "Gel", flags := .ofList [(.item, none)], tree := .group true none [],
      itemName := some "Gel", line := 3, copy := none },
    { name := "Pick", flags := .ofList [(.item, none), (.pickaxe, some (.number 35))],
      tree := .group true none [], itemName := some "Pick", line := 4, copy := none }]
  goals := []
  labels := []
  rewards := []
  capabilities := { pickaxes := [(3, 35)] }

/-- The cave is reached with the gel and the pickaxe, and still is with more of everything. -/
theorem canReach_mono_campTable : ∃ table session,
    Table.ofTexts ("Camp;Location;Gel(2) & ~@calamity;\nCave;Location;#Camp & @pickaxe(35);\n" ++
        "Gel;Item;\nPick;Item|Pickaxe(35);") "" = .ok table ∧
      table.session {} = .ok session ∧
      session.canReach (Inventory.ofNames ["Gel", "Gel", "Pick"]).holdings "Cave" = .ok true ∧
      ∀ items, session.canReach ((Inventory.ofNames ["Gel", "Gel", "Pick"]).addAll items).holdings
        "Cave" = .ok true := by
  have htexts : Table.ofTexts ("Camp;Location;Gel(2) & ~@calamity;\n" ++
      "Cave;Location;#Camp & @pickaxe(35);\nGel;Item;\nPick;Item|Pickaxe(35);") "" =
        .ok campTable := by cbv
  let session : Session := ⟨campTable, {}, none⟩
  have hsession : campTable.session {} = .ok session := rfl
  have hreached : session.canReach (Inventory.ofNames ["Gel", "Gel", "Pick"]).holdings "Cave" =
      .ok true := rfl
  have hname : campTable.indexOf? "Cave" = some 1 := rfl
  have hpositive : ∀ entry ∈ campTable.entries, entry.tree.Positive := by
    simp [campTable, Builtin.takesNumber]
  refine ⟨_, session, htexts, hsession, hreached, fun items => ?_⟩
  exact (canReach_mono (.inl ⟨_, _, htexts⟩) hsession hname
    fun _ entry _ hentry => hpositive entry (List.mem_of_getElem? hentry)).2 _ items hreached

end Session

end Reachability
