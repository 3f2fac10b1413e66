import Reachability.Proofs.Session.Evaluate

/-!
# Session — minions

The minions that follow a player are counted in words, and each step of the count is capped.  Over
the bonuses that are held the steps come to one cap of the exact count (`toNat_minionCapacity`), so
no number that `@minions` is called with tells the two apart (`Session.evaluate_minions`).
-/

namespace Reachability

/-! ### Counting without a cap -/

/-- The largest of some numbers, or 0 if there are none. -/
def largest (numbers : List Nat) : Nat := numbers.max?.getD 0

@[simp] theorem largest_nil : largest [] = 0 := rfl

@[simp] theorem largest_cons (n : Nat) (rest : List Nat) :
    largest (n :: rest) = max n (largest rest) := by
  rw [largest, largest, List.max?_cons]
  cases rest.max? with
  | none => exact (Nat.max_eq_left (Nat.zero_le n)).symm
  | some m => rfl

/-- The best armor so far and some bonuses, capped one by one, are the best armor of all, capped. -/
theorem toNat_foldl_best (bonuses : List UInt64) {best : UInt64} (hbest : 1 ≤ best.toNat) :
    (bonuses.foldl (fun best bonus => max best (Capped.add bonus 1)) best).toNat =
      min (max best.toNat (1 + largest (bonuses.map UInt64.toNat))) Capped.cap := by
  induction bonuses generalizing best with
  | nil =>
    have hcap := Capped.toNat_le_cap best
    rw [List.foldl_nil, List.map_nil, largest_nil]
    omega
  | cons bonus rest ih =>
    have hnext : (max best (Capped.add bonus 1)).toNat =
        max best.toNat (min (1 + bonus.toNat) Capped.cap) := by
      rw [UInt64.toNat_max, Capped.toNat_add, Nat.add_comm]
      rfl
    rw [List.foldl_cons, ih (by omega), List.map_cons, largest_cons, hnext]
    have hcap := Capped.toNat_le_cap best
    omega

/-- Capping at every step of the count is capping the exact count. -/
theorem toNat_minionCapacity (armor accessories : List UInt64) :
    (minionCapacity armor accessories).toNat =
      min (1 + largest (armor.map UInt64.toNat) + (accessories.map UInt64.toNat).sum)
        Capped.cap := by
  have hone : (1 : UInt64).toNat = 1 := rfl
  have hbest := toNat_foldl_best armor hone.ge
  have hsum := Capped.toNat_sum accessories
  rw [minionCapacity, Capped.toNat_add, hbest, hsum, hone, List.sum, List.foldr_map]
  omega

namespace Session

variable {session : Session} {has : Holdings}

/-- Whether what the entry of an index hands out is held. -/
def isHeld (session : Session) (has : Holdings) (index : Nat) : Bool :=
  session.table.entries[index]?.any fun entry => has (session.heldName entry) 1

/-- The bonuses of those of some entries that are held, as numbers. -/
def bonusesHeld (session : Session) (has : Holdings) (bonuses : List (Nat × UInt64)) : List Nat :=
  (bonuses.filter fun bonus => session.isHeld has bonus.1).map fun bonus => bonus.2.toNat

theorem bonusesHeld_cons (index : Nat) (bonus : UInt64) (rest : List (Nat × UInt64)) :
    session.bonusesHeld has ((index, bonus) :: rest) =
      if session.isHeld has index then bonus.toNat :: session.bonusesHeld has rest
      else session.bonusesHeld has rest := by
  simp only [bonusesHeld, List.filter_cons]
  split <;> rfl

theorem holds_one {index : Nat} (h : index < session.table.entries.length) :
    session.holds has index 1 = .ok (session.isHeld has index) := by
  rw [holds, entryAt_eq_ok h, isHeld, List.getElem?_eq_getElem h]
  rfl

/-- Collecting the bonuses of entries of the table collects those that are held. -/
theorem heldBonuses_eq_ok (has : Holdings) {bonuses : List (Nat × UInt64)}
    (h : ∀ index ∈ bonuses.map Prod.fst, index < session.table.entries.length) :
    ∃ held, session.heldBonuses has bonuses = .ok held ∧
      held.map UInt64.toNat = session.bonusesHeld has bonuses := by
  induction bonuses with
  | nil => exact ⟨[], rfl, rfl⟩
  | cons source rest ih =>
    obtain ⟨index, bonus⟩ := source
    rw [List.map_cons, List.forall_mem_cons] at h
    obtain ⟨held, hheld, hnumbers⟩ := ih h.2
    rw [heldBonuses, holds_one h.1, hheld, bonusesHeld_cons, ← hnumbers]
    cases session.isHeld has index with
    | true => exact ⟨bonus :: held, rfl, rfl⟩
    | false => exact ⟨held, rfl, rfl⟩

/-- A count of minions reaches a number exactly if the exact count does. -/
theorem le_minionCapacity_iff {n : UInt64} {armor accessories : List UInt64} :
    n ≤ minionCapacity armor accessories ↔
      n.toNat ≤ 1 + largest (armor.map UInt64.toNat) + (accessories.map UInt64.toNat).sum := by
  have hcap := Capped.toNat_le_cap n
  rw [UInt64.le_iff_toNat_le, toNat_minionCapacity]
  omega

/-- `@minions(n)`, wherever it stands in a tree, asks whether one minion, those that the best armor
held adds and those that all accessories held add are at least `n`, however many they are. -/
theorem evaluate_minions {table : Table} (htable : table.Made) {options : Options}
    {session : Session} (hsession : table.session options = .ok session) (has : Holdings)
    (n : UInt64) :
    table.resolve (.call true "minions" (some (.number n))) =
        .ok (.call true .minions (some (.number n))) ∧
      ∀ enter, Condition.evaluate (session.meaning has enter)
          (.call true .minions (some (.number n))) =
        .ok (decide (n.toNat ≤
          1 + largest (session.bonusesHeld has table.capabilities.armorMinions) +
            (session.bonusesHeld has table.capabilities.accessoryMinions).sum)) := by
  obtain rfl := table_of_session hsession
  have hcapabilities := htable.sound.capabilities
  simp only [Cache.capabilityIndices, List.map_append, List.mem_append, or_imp,
    forall_and] at hcapabilities
  obtain ⟨-, ⟨-, harmor⟩, haccessories⟩ := hcapabilities
  obtain ⟨armor, hcollected, harmor⟩ := heldBonuses_eq_ok has harmor
  obtain ⟨accessories, hcollected', haccessories⟩ := heldBonuses_eq_ok has haccessories
  refine ⟨rfl, fun enter => ?_⟩
  have hcall : session.call has enter .minions (some (.number n)) =
      .ok (decide (n ≤ minionCapacity armor accessories)) := by
    rw [call, hcollected, hcollected']
    rfl
  rw [← harmor, ← haccessories, ← decide_eq_decide.mpr le_minionCapacity_iff]
  change (true == ·) <$> session.call has enter .minions (some (.number n)) = _
  rw [hcall]
  exact congrArg Except.ok (Bool.true_beq _)

/-- Armor of two kinds, and a necklace that adds as many minions as a word can count. -/
def hiveSheet : RuleSheet where
  rules := [
    { name := "Bee Armor", flags := .ofList [(.armorMinions, some (.number 1))], line := 1 },
    { name := "Spider Armor", flags := .ofList [(.armorMinions, some (.number 2))], line := 2 },
    { name := "Necklace", flags := .ofList [(.minions, some (.number 0xFFFFFFFFFFFFFFFF))],
      line := 3 }]

/-- The table of `hiveSheet`. -/
def hiveTable : Table where
  entries := [
    { name := "Bee Armor", flags := .ofList [(.armorMinions, some (.number 1))],
      tree := .group true none [], itemName := none, line := 1, copy := none },
    { name := "Spider Armor", flags := .ofList [(.armorMinions, some (.number 2))],
      tree := .group true none [], itemName := none, line := 2, copy := none },
    { name := "Necklace", flags := .ofList [(.minions, some (.number 0xFFFFFFFFFFFFFFFF))],
      tree := .group true none [], itemName := none, line := 3, copy := none }]
  goals := []
  labels := []
  rewards := []
  capabilities :=
    { armorMinions := [(0, 1), (1, 2)], accessoryMinions := [(2, 0xFFFFFFFFFFFFFFFF)] }

/-- Only the best armor counts, and with the necklace there are more minions than a word can
count. -/
theorem evaluate_minions_hiveTable : ∃ session, hiveTable.session {} = .ok session ∧
    (∀ enter, Condition.evaluate
        (session.meaning (.ofNames ["Bee Armor", "Spider Armor"]) enter)
        (.call true .minions (some (.number 4))) = .ok false) ∧
    ∀ enter, Condition.evaluate
        (session.meaning (.ofNames ["Bee Armor", "Spider Armor", "Necklace"]) enter)
        (.call true .minions (some (.number 0xFFFFFFFFFFFFFFFF))) = .ok true := by
  let session : Session := ⟨hiveTable, {}, none⟩
  have hsession : hiveTable.session {} = .ok session := rfl
  have hmade : hiveTable.Made := .inl ⟨hiveSheet, {}, rfl⟩
  refine ⟨session, hsession, fun enter => ?_, fun enter => ?_⟩
  · exact ((evaluate_minions hmade hsession _ 4).2 enter).trans
      (congrArg Except.ok (by decide +kernel))
  · exact ((evaluate_minions hmade hsession _ 0xFFFFFFFFFFFFFFFF).2 enter).trans
      (congrArg Except.ok (by decide +kernel))

end Session

end Reachability
