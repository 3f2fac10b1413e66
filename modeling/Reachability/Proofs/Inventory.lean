import Mathlib.Data.List.Induction
import Mathlib.Data.List.Sort
import Reachability.Inventory

/-!
# Inventory — what steps leave

The entries of an inventory list what is held, except that a name may have an entry although none
of it is held: adding zero copies makes one, and the next step that takes of the name, be it zero
copies again, undoes it (`Inventory.Hollow`).  Apart from such names inventories are told apart by
their counts alone (`Inventory.entries_ofSteps`).
-/

namespace Reachability.Inventory

/-! ### Entries -/

/-- The entries are what is found under the names. -/
theorem get?_eq_some_iff {inventory : Inventory} {name : String} {count : UInt64} :
    inventory.get? name = some count ↔ (name, count) ∈ inventory.entries := by
  obtain ⟨entries, sorted⟩ := inventory
  rw [get?]
  induction entries with
  | nil => simp
  | cons entry rest ih =>
    obtain ⟨n, held⟩ := entry
    obtain ⟨hn, hrest⟩ := List.pairwise_cons.mp sorted
    by_cases hname : name = n
    · subst hname
      have hnot : (name, count) ∉ rest := fun hmem =>
        String.lt_irrefl name (hn name (List.mem_map_of_mem hmem))
      simp [hnot, eq_comm]
    · rw [lookup_cons_of_ne hname, ih hrest]
      simp [hname]

/-- An inventory is what is found under the names. -/
theorem ext_get? {a b : Inventory} (h : ∀ name, a.get? name = b.get? name) : a = b := by
  have hentries : a.entries = b.entries := by
    refine (List.pairwise_map.mp a.sorted).eq_of_mem_iff (List.pairwise_map.mp b.sorted) ?_
    rintro ⟨name, count⟩
    rw [← get?_eq_some_iff, ← get?_eq_some_iff, h]
  cases a
  cases b
  cases hentries
  rfl

/-- What is found under a name is the count of it. -/
theorem count_of_get? {inventory : Inventory} {name : String} {count : UInt64}
    (h : inventory.get? name = some count) : inventory.count name = count := by
  rw [Inventory.count, h]
  rfl

/-! ### Steps -/

/-- What is done to an inventory that is being built or kept. -/
inductive Step where
  /-- More copies of a name. -/
  | add (name : String) (count : UInt64)
  /-- Fewer copies of a name. -/
  | remove (name : String) (count : UInt64)
  /-- A new inventory of one copy for each time a name is listed. -/
  | collect (names : List String)

/-- The inventory after a step. -/
def apply (inventory : Inventory) : Step → Inventory
  | .add name count => inventory.add name count
  | .remove name count => (inventory.remove name count).2
  | .collect names => ofNames names

/-- The inventory after some steps, from nothing held. -/
def ofSteps (steps : List Step) : Inventory := steps.foldl apply ∅

theorem ofSteps_append (before after : List Step) :
    ofSteps (before ++ after) = after.foldl apply (ofSteps before) :=
  List.foldl_append

/-- Whether a step takes of `name`, be it zero copies, or starts anew. -/
def Step.Takes (name : String) : Step → Prop
  | .add _ _ => False
  | .remove n _ => n = name
  | .collect _ => True

/-- None of `name` is held, but zero copies of it were added and no step has taken of it since. -/
def Hollow (steps : List Step) (name : String) : Prop :=
  (ofSteps steps).count name = 0 ∧
    ∃ before after, steps = before ++ .add name 0 :: after ∧ ∀ step ∈ after, ¬step.Takes name

/-! ### Empty entries -/

/-- Adding leaves an empty entry only by adding zero copies, or where there is one already. -/
theorem get?_add_eq_zero {inventory : Inventory} {name n : String} {count : UInt64}
    (h : (inventory.add n count).get? name = some 0) :
    n = name ∧ count = 0 ∨ inventory.get? name = some 0 := by
  rw [add, get?_alter] at h
  split at h
  · next hname =>
    have hsum := congrArg UInt64.toNat (Option.some.inj h)
    rw [Capped.toNat_add, UInt64.toNat_zero, Capped.cap] at hsum
    have hcount : count.toNat = 0 := by omega
    exact .inl ⟨hname.symm, UInt64.toNat.inj hcount⟩
  · exact .inr h

/-- Collecting names leaves no empty entry. -/
theorem get?_ofNames_ne_zero (names : List String) (name : String) :
    (ofNames names).get? name ≠ some 0 := by
  suffices h : ∀ inventory : Inventory, inventory.get? name ≠ some 0 →
      (names.foldl (fun inventory name => inventory.add name 1) inventory).get? name ≠ some 0 from
    h empty nofun
  induction names with
  | nil => exact fun _ h => h
  | cons n rest ih =>
    refine fun inventory h => ih _ fun hzero => ?_
    rcases get?_add_eq_zero hzero with ⟨-, hone⟩ | hzero
    · cases hone
    · exact h hzero

/-- An entry that is empty after a step comes from adding zero copies, or it was empty before and
the step did not take of it. -/
theorem get?_apply_eq_zero {inventory : Inventory} {step : Step} {name : String}
    (h : (inventory.apply step).get? name = some 0) :
    step = .add name 0 ∨ inventory.get? name = some 0 ∧ ¬step.Takes name := by
  cases step with
  | add n count =>
    rcases get?_add_eq_zero h with ⟨rfl, rfl⟩ | hzero
    · exact .inl rfl
    · exact .inr ⟨hzero, id⟩
  | remove n count =>
    rw [apply, remove, get?_alter] at h
    split at h
    · obtain ⟨held, -, hleft⟩ := Option.bind_eq_some_iff.mp h
      exact absurd hleft (leftOver_ne_zero count held)
    · next hname => exact .inr ⟨h, Ne.symm hname⟩
  | collect names => exact absurd h (get?_ofNames_ne_zero names name)

/-- A step that does not take of a name leaves its entry there. -/
theorem isSome_get?_apply {inventory : Inventory} {step : Step} {name : String}
    (hstep : ¬step.Takes name) (h : (inventory.get? name).isSome) :
    ((inventory.apply step).get? name).isSome := by
  cases step with
  | add n count =>
    rw [apply, add, get?_alter]
    split
    · rfl
    · exact h
  | remove n count =>
    rw [apply, remove, get?_alter, if_neg (Ne.symm hstep)]
    exact h
  | collect names => exact absurd trivial hstep

theorem isSome_get?_foldl_apply {steps : List Step} {name : String}
    (hsteps : ∀ step ∈ steps, ¬step.Takes name) {inventory : Inventory}
    (h : (inventory.get? name).isSome) : ((steps.foldl apply inventory).get? name).isSome := by
  induction steps generalizing inventory with
  | nil => exact h
  | cons step rest ih =>
    rw [List.forall_mem_cons] at hsteps
    exact ih hsteps.2 (isSome_get?_apply hsteps.1 h)

/-- The empty entries after some steps are the hollow ones. -/
theorem get?_ofSteps_eq_zero_iff {steps : List Step} {name : String} :
    (ofSteps steps).get? name = some 0 ↔ Hollow steps name := by
  constructor
  · intro h
    refine ⟨count_of_get? h, ?_⟩
    -- from the last step back to the one that made the entry
    induction steps using List.reverseRecOn with
    | nil => cases h
    | append_singleton steps step ih =>
      rw [ofSteps_append, List.foldl_cons, List.foldl_nil] at h
      rcases get?_apply_eq_zero h with rfl | ⟨hzero, hstep⟩
      · exact ⟨steps, [], rfl, nofun⟩
      · obtain ⟨before, after, rfl, hafter⟩ := ih hzero
        refine ⟨before, after ++ [step], by simp, ?_⟩
        rw [List.forall_mem_append]
        exact ⟨hafter, List.forall_mem_singleton.mpr hstep⟩
  · rintro ⟨hcount, before, after, rfl, hafter⟩
    have hadded : (((ofSteps before).apply (.add name 0)).get? name).isSome := by
      rw [apply, add, get?_alter, if_pos rfl]
      rfl
    obtain ⟨held, hheld⟩ :=
      Option.isSome_iff_exists.mp (isSome_get?_foldl_apply hafter hadded)
    rw [ofSteps_append, List.foldl_cons] at hcount ⊢
    rw [count_of_get? hheld] at hcount
    rw [hheld, hcount]

/-- What is found under a name after some steps: how many are held, if any are or if the name is
hollow. -/
theorem get?_ofSteps_eq_some_iff {steps : List Step} {name : String} {count : UInt64} :
    (ofSteps steps).get? name = some count ↔
      (ofSteps steps).count name = count ∧ (0 < count ∨ Hollow steps name) := by
  constructor
  · intro h
    refine ⟨count_of_get? h, ?_⟩
    by_cases hzero : count = 0
    · exact .inr (get?_ofSteps_eq_zero_iff.mp (hzero ▸ h))
    · exact .inl (UInt64.pos_iff_ne_zero.mpr hzero)
  · rintro ⟨rfl, hpos | hhollow⟩
    · cases h : (ofSteps steps).get? name with
      | none => exact absurd hpos (by simp [Inventory.count, h])
      | some held => rw [count_of_get? h]
    · rw [hhollow.1]
      exact get?_ofSteps_eq_zero_iff.mpr hhollow

/-- The entries after any steps are the names that are held, with their counts, and the hollow
names.  So all entries have copies exactly if no name is hollow, and two inventories are equal
exactly if their counts are and the same names are hollow.  Only steps that add zero copies make
names hollow. -/
theorem entries_ofSteps (steps : List Step) :
    (∀ name count, (name, count) ∈ (ofSteps steps).entries ↔
        (ofSteps steps).count name = count ∧ (0 < count ∨ Hollow steps name)) ∧
      ((∀ entry ∈ (ofSteps steps).entries, 0 < entry.2) ↔ ∀ name, ¬Hollow steps name) ∧
      (∀ others, ofSteps steps = ofSteps others ↔
        (∀ name, (ofSteps steps).count name = (ofSteps others).count name) ∧
          ∀ name, Hollow steps name ↔ Hollow others name) ∧
      ∀ name, Hollow steps name → .add name 0 ∈ steps := by
  have hentries (name : String) (count : UInt64) : (name, count) ∈ (ofSteps steps).entries ↔
      (ofSteps steps).count name = count ∧ (0 < count ∨ Hollow steps name) :=
    get?_eq_some_iff.symm.trans get?_ofSteps_eq_some_iff
  refine ⟨hentries, ⟨fun hpos name hhollow => ?_, ?_⟩, fun others => ⟨?_, ?_⟩, ?_⟩
  · have hempty := hpos (name, 0) ((hentries name 0).mpr ⟨hhollow.1, .inr hhollow⟩)
    exact absurd hempty UInt64.not_lt_zero
  · rintro hnone ⟨name, count⟩ hentry
    exact ((hentries name count).mp hentry).2.resolve_right (hnone name)
  · intro h
    refine ⟨fun name => by rw [h], fun name => ?_⟩
    rw [← get?_ofSteps_eq_zero_iff, ← get?_ofSteps_eq_zero_iff, h]
  · rintro ⟨hcount, hhollow⟩
    refine ext_get? fun name => Option.ext fun count => ?_
    rw [get?_ofSteps_eq_some_iff, get?_ofSteps_eq_some_iff, hcount, hhollow]
  · rintro name ⟨-, before, after, rfl, -⟩
    exact List.mem_append_right before List.mem_cons_self

/-- Adding zero torches leaves an entry for them, which tells the inventory from the empty one
although the two hold the same. -/
theorem entries_ofSteps_fails :
    ("Torch", 0) ∈ (ofSteps [.add "Torch" 0]).entries ∧
      (∀ name, (ofSteps [.add "Torch" 0]).count name = (ofSteps []).count name) ∧
      ofSteps [.add "Torch" 0] ≠ ofSteps [] := by
  refine ⟨by decide, fun name => ?_, by decide⟩
  rw [ofSteps, List.foldl_cons, apply, List.foldl_nil, count_add]
  split <;> rfl

end Reachability.Inventory
