import Reachability.Proofs.Session.Evaluate
import Reachability.Proofs.Table.Acyclic

/-!
# Session — what a query asks

* `Asks`: the names and counts that the value of a tree may depend on, which are those of the items
  in it and of the entries that its calls count.
* `evaluate_congr_of_asks`: two states that answer alike what a tree asks give it the same value.
* `enter_congr_of_asks`: the same of entering an entry, for all trees that may be entered.
* `canReach_congr_of_asks`: the same of asking for a rule, so nothing else that is held has an
  influence on the answer.
-/

namespace Reachability

/-- The entries whose items a function counts or looks for. -/
def Capabilities.counted (capabilities : Capabilities) : Builtin → List Nat
  | .npc => capabilities.npcs
  | .mechBoss => capabilities.mechBosses
  | .pickaxe => capabilities.pickaxes.map Prod.fst
  | .hammer => capabilities.hammers.map Prod.fst
  | .minions => (capabilities.armorMinions ++ capabilities.accessoryMinions).map Prod.fst
  | _ => []

/-- What echoes an option counts nothing. -/
theorem Capabilities.counted_of_not_takesNumber {capabilities : Capabilities} {function : Builtin}
    (h : function.takesNumber = false) : capabilities.counted function = [] := by
  cases function with
  | npc | mechBoss | pickaxe | hammer | minions => cases h
  | _ => rfl

namespace Session

variable {session : Session} {has has' : Holdings} {enter : Nat → Except QueryError Bool}

/-- The value of a tree may depend on whether so many of an item are held: the tree asks for the
item, or a call in it counts one copy. -/
inductive Asks (session : Session) (tree : Tree) : String → UInt64 → Prop
  | item {sign : Bool} {target : Nat} {quantity : UInt64} {found : Entry} :
      Condition.Inside (.item sign target quantity) tree →
      session.table.entries[target]? = some found →
      Asks session tree (session.heldName found) quantity
  | call {sign : Bool} {function : Builtin} {argument : Option Argument} {index : Nat}
      {found : Entry} :
      Condition.Inside (.call sign function argument) tree →
      index ∈ session.table.capabilities.counted function →
      session.table.entries[index]? = some found → Asks session tree (session.heldName found) 1

/-- What a member of a group asks, the group does. -/
theorem Asks.group {sign : Bool} {operator : Option Operator} {members : List Tree} {c : Tree}
    (hc : c ∈ members) {name : String} {quantity : UInt64} (h : session.Asks c name quantity) :
    session.Asks (.group sign operator members) name quantity := by
  cases h with
  | item hin hfound => exact .item (.member hc hin) hfound
  | call hin hindex hfound => exact .call (.member hc hin) hindex hfound

/-- Two states answer alike whether so many of the item of an entry are held. -/
def AnswersAlike (session : Session) (has has' : Holdings) (index : Nat) (quantity : UInt64) :
    Prop :=
  ∀ found, session.table.entries[index]? = some found →
    has (session.heldName found) quantity = has' (session.heldName found) quantity

theorem holds_congr {index : Nat} {quantity : UInt64}
    (h : session.AnswersAlike has has' index quantity) :
    session.holds has index quantity = session.holds has' index quantity := by
  unfold holds entryAt
  cases hfound : session.table.entries[index]? with
  | none => rfl
  | some found => exact congrArg Except.ok (h found hfound)

theorem countHeld_congr {indices : List Nat}
    (h : ∀ index ∈ indices, session.AnswersAlike has has' index 1) :
    session.countHeld has indices = session.countHeld has' indices := by
  induction indices with
  | nil => rfl
  | cons index rest ih =>
    rw [countHeld, countHeld, holds_congr (h index List.mem_cons_self),
      ih fun i hi => h i (List.mem_cons_of_mem index hi)]

theorem heldBonuses_congr {bonuses : List (Nat × UInt64)}
    (h : ∀ index ∈ bonuses.map Prod.fst, session.AnswersAlike has has' index 1) :
    session.heldBonuses has bonuses = session.heldBonuses has' bonuses := by
  induction bonuses with
  | nil => rfl
  | cons bonus rest ih =>
    rw [heldBonuses, heldBonuses, holds_congr (h bonus.1 List.mem_cons_self),
      ih fun i hi => h i (List.mem_cons_of_mem bonus.1 hi)]

theorem holdsPower_congr {n : UInt64} {tools : List (Nat × UInt64)}
    (h : ∀ index ∈ tools.map Prod.fst, session.AnswersAlike has has' index 1) :
    session.holdsPower has n tools = session.holdsPower has' n tools := by
  refine Except.anyM_congr fun tool htool => ?_
  dsimp only
  rw [holds_congr (h tool.1 (List.mem_map_of_mem htool))]

/-- A function answers the same if the items that it counts are held alike. -/
theorem call_congr {function : Builtin} {argument : Option Argument}
    (h : ∀ index ∈ session.table.capabilities.counted function,
      session.AnswersAlike has has' index 1) :
    session.call has enter function argument = session.call has' enter function argument := by
  have hcount : session.countHeld has (session.table.capabilities.counted function) =
      session.countHeld has' (session.table.capabilities.counted function) := countHeld_congr h
  cases function with
  | npc | mechBoss =>
    rw [Capabilities.counted] at hcount
    simp only [call, hcount]
  | pickaxe =>
    have hpower (n : UInt64) : session.holdsPower has n session.table.capabilities.pickaxes =
        session.holdsPower has' n session.table.capabilities.pickaxes := holdsPower_congr h
    simp only [call, hpower]
  | hammer =>
    have hpower (n : UInt64) : session.holdsPower has n session.table.capabilities.hammers =
        session.holdsPower has' n session.table.capabilities.hammers := holdsPower_congr h
    simp only [call, hpower]
  | minions =>
    simp only [Capabilities.counted, List.map_append, List.mem_append, or_imp, forall_and] at h
    simp only [call, heldBonuses_congr h.1, heldBonuses_congr h.2]
  | _ => rfl

/-- A tree has the same value in two states that answer alike what it asks. -/
theorem evaluate_congr_of_asks {tree : Tree}
    (h : ∀ name quantity, session.Asks tree name quantity →
      has name quantity = has' name quantity) :
    tree.evaluate (session.meaning has enter) = tree.evaluate (session.meaning has' enter) := by
  induction tree using Condition.induct with
  | item sign target quantity =>
    have hholds : session.holds has target quantity = session.holds has' target quantity :=
      holds_congr fun found hfound => h _ _ (.item .self hfound)
    simp only [Condition.evaluate, meaning, hholds]
  | location => rfl
  | call sign function argument =>
    have hcall : session.call has enter function argument =
        session.call has' enter function argument :=
      call_congr fun index hindex found hfound => h _ _ (.call .self hindex hfound)
    simp only [Condition.evaluate, meaning, hcall]
  | group sign operator members ih =>
    have hmembers : ∀ c ∈ members, c.evaluate (session.meaning has enter) =
        c.evaluate (session.meaning has' enter) :=
      fun c hc => ih c hc fun name quantity hasks => h name quantity (hasks.group hc)
    cases operator with
    | none =>
      rcases members with _ | ⟨c, _ | _⟩
      · rfl
      · simp only [Condition.evaluate, Condition.evaluateOnly, hmembers c List.mem_cons_self]
      · rfl
    | some operator =>
      cases operator with
      | and =>
        simp only [Condition.evaluate, Condition.evaluateAll_eq_allM, Except.allM_congr hmembers]
      | or =>
        simp only [Condition.evaluate, Condition.evaluateAny_eq_anyM, Except.anyM_congr hmembers]

/-- Entering an entry answers the same in two states that answer alike what the trees ask that may
be entered. -/
theorem enter_congr_of_asks (hsound : session.table.Sound) {start : Nat}
    (hstart : start < session.table.entries.length)
    (h : ∀ i entry, session.table.MayEnter start i → session.table.entries[i]? = some entry →
      ∀ name quantity, session.Asks entry.tree name quantity →
        has name quantity = has' name quantity) :
    session.enter has start = session.enter has' start := by
  refine of_mayEnter (P := fun depth i => session.enterWithin has depth i =
    session.enterWithin has' depth i) hsound (fun depth i hi hmay hdescents => ?_) hstart
  rw [enterWithin, enterWithin, entryAt_eq_ok hi]
  -- first the holdings change, then what entering answers
  calc session.table.entries[i].tree.evaluate
        (session.meaning has (session.enterWithin has depth))
      = session.table.entries[i].tree.evaluate
          (session.meaning has' (session.enterWithin has depth)) :=
        evaluate_congr_of_asks (h i _ hmay (List.getElem?_eq_getElem hi))
    _ = session.table.entries[i].tree.evaluate
          (session.meaning has' (session.enterWithin has' depth)) :=
        evaluate_congr fun j hj => hdescents j (mem_descents_of_enters hj)

/-- What is asked for is all that has an influence on whether a rule can be reached.  Two states
that answer alike what the trees ask to which the edges from the rule lead, be it its own or that of
a location or of gear, give the same answer or fail for the same reason. -/
theorem canReach_congr_of_asks {table : Table} (htable : table.Made) {options : Options}
    {session : Session} (hsession : table.session options = .ok session) {i : Nat} {entry : Entry}
    (hentry : table.entries[i]? = some entry) {has has' : Holdings}
    (hagree : ∀ j found,
      Relation.ReflTransGen (Descent.Edge table.entries table.capabilities) i j →
      table.entries[j]? = some found → ∀ name quantity, session.Asks found.tree name quantity →
        has name quantity = has' name quantity) :
    session.canReach has entry.name = session.canReach has' entry.name := by
  have hsound := htable.sound
  obtain rfl := table_of_session hsession
  have hindex := hsound.indexOf?_name hentry
  rw [canReach_eq_enter hsound hindex, canReach_eq_enter hsound hindex]
  exact enter_congr_of_asks hsound (Table.lt_of_indexOf? hindex) fun j found hmay =>
    hagree j found (Descent.mayEnter_iff.mp hmay)

/-- A tower behind a cave that takes gear. -/
def towerSheet : RuleSheet where
  rules := [
    { name := "Tower", flags := .ofList [(.location, none)], operator := some .and,
      conditions := [.item true "Stone" 1, .location true "Cave",
        .call true "npc" (some (.number 1))], line := 1 },
    { name := "Cave", conditions := [.call true "gear_power" (some (.number 10))], line := 2 },
    { name := "Stone", flags := .ofList [(.item, none)], line := 3 },
    { name := "Gear", flags := .ofList [(.weaponPower, some (.number 20)),
        (.armorPower, some (.number 20)), (.accessoryPower, some (.number 20))],
      conditions := [.item true "Gel" 1], line := 4 },
    { name := "Gel", flags := .ofList [(.item, none)], line := 5 },
    { name := "Merchant", flags := .ofList [(.npc, none)], line := 6 }]

/-- The table of `towerSheet`. -/
def towerTable : Table where
  entries := [
    { name := "Tower", flags := .ofList [(.location, none)],
      tree := .group true (some .and)
        [.item true 2 1, .location true 1, .call true .npc (some (.number 1))],
      itemName := none, line := 1, copy := none },
    { name := "Cave", flags := ∅,
      tree := .group true none [.call true .gearPower (some (.number 10))],
      itemName := none, line := 2, copy := none },
    { name := "Stone", flags := .ofList [(.item, none)], tree := .group true none [],
      itemName := some "Stone", line := 3, copy := none },
    { name := "Gear", flags := .ofList [(.weaponPower, some (.number 20)),
        (.armorPower, some (.number 20)), (.accessoryPower, some (.number 20))],
      tree := .group true none [.item true 4 1], itemName := none, line := 4, copy := none },
    { name := "Gel", flags := .ofList [(.item, none)], tree := .group true none [],
      itemName := some "Gel", line := 5, copy := none },
    { name := "Merchant", flags := .ofList [(.npc, none)], tree := .group true none [],
      itemName := none, line := 6, copy := none }]
  goals := []
  labels := []
  rewards := []
  capabilities :=
    { npcs := [5], weapons := [(3, 20)], armor := [(3, 20)], accessories := [(3, 20)] }

/-- Evaluating the tower enters the tree of the gear, but never asks for the gear itself. -/
theorem canReach_congr_of_asks_towerTable : ∃ session, towerTable.session {} = .ok session ∧
    session.canReach (.ofNames ["Stone", "Gel", "Merchant", "Gear"]) "Tower" =
      session.canReach (.ofNames ["Stone", "Gel", "Merchant"]) "Tower" ∧
    session.canReach (.ofNames ["Stone", "Gel", "Merchant"]) "Tower" = .ok true := by
  let session : Session := ⟨towerTable, {}, none⟩
  have hsession : towerTable.session {} = .ok session := rfl
  have hmade : towerTable.Made := .inl ⟨towerSheet, {}, rfl⟩
  have hitems : ∀ found ∈ towerTable.entries, ∀ sign target quantity,
      Condition.Inside (.item sign target quantity) found.tree → target ≠ 3 := by
    simp [towerTable, Condition.inside_group, Condition.inside_item, Condition.inside_location,
      Condition.inside_call]
  have hcalls : ∀ found ∈ towerTable.entries, ∀ sign function argument,
      Condition.Inside (.call sign function argument) found.tree →
        3 ∉ towerTable.capabilities.counted function := by
    simp [towerTable, Condition.inside_group, Condition.inside_item, Condition.inside_location,
      Condition.inside_call, Capabilities.counted]
  have hnames : ∀ i found, towerTable.entries[i]? = some found → i ≠ 3 →
      session.heldName found ≠ "Gear" := by
    have hbelow : ∀ i : Fin towerTable.entries.length, i.val ≠ 3 →
        session.heldName (towerTable.entries.get i) ≠ "Gear" := by decide
    rintro i found hfound hi
    obtain ⟨hlt, rfl⟩ := List.getElem?_eq_some_iff.mp hfound
    exact hbelow ⟨i, hlt⟩ hi
  have hasks : ∀ found ∈ towerTable.entries, ∀ name quantity,
      session.Asks found.tree name quantity → name ≠ "Gear" := by
    rintro found hfound _ _ (⟨hin, hother⟩ | ⟨hin, hindex, hother⟩)
    · exact hnames _ _ hother (hitems found hfound _ _ _ hin)
    · refine hnames _ _ hother ?_
      rintro rfl
      exact hcalls found hfound _ _ _ hin hindex
  have hagree : ∀ name quantity, name ≠ "Gear" →
      Holdings.ofNames ["Stone", "Gel", "Merchant", "Gear"] name quantity =
        Holdings.ofNames ["Stone", "Gel", "Merchant"] name quantity := by
    intro name quantity hname
    simp [Holdings.ofNames, hname]
  refine ⟨session, hsession, ?_, rfl⟩
  exact canReach_congr_of_asks hmade hsession
    (show towerTable.entries[0]? = some towerTable.entries[0] from rfl)
    fun j found _ hfound name quantity h =>
      hagree name quantity (hasks found (List.mem_of_getElem? hfound) name quantity h)

end Session

end Reachability
