import Reachability.Capped
import Reachability.Holdings

/-!
# Inventory — held items by count

The entries of an inventory ascend by name, each name once.  An entry goes when its last copy is
removed.  What adding and removing do is said of the counts (`Inventory.count_add`,
`Inventory.count_remove`).
-/

namespace Reachability

/-- Item names and how many of each are held. -/
structure Inventory where
  entries : List (String × UInt64)
  sorted : (entries.map Prod.fst).Pairwise (· < ·)
  deriving DecidableEq

namespace Inventory

/-- An entry of `name`, if there is a count for it. -/
def entryOf (name : String) : Option UInt64 → List (String × UInt64)
  | none => []
  | some count => [(name, count)]

/-- Ascending entries with the count of `name` changed by `change`, where `none` is no entry. -/
def alterIn (name : String) (change : Option UInt64 → Option UInt64) :
    List (String × UInt64) → List (String × UInt64)
  | [] => entryOf name (change none)
  | (n, count) :: rest =>
    if name < n then entryOf name (change none) ++ (n, count) :: rest
    else if name = n then entryOf name (change (some count)) ++ rest
    else (n, count) :: alterIn name change rest

theorem mem_entryOf {name x : String} {count : Option UInt64}
    (h : x ∈ (entryOf name count).map Prod.fst) : x = name := by
  cases count <;> simp_all [entryOf]

theorem mem_alterIn {name x : String} {change : Option UInt64 → Option UInt64}
    {entries : List (String × UInt64)} (h : x ∈ (alterIn name change entries).map Prod.fst) :
    x = name ∨ x ∈ entries.map Prod.fst := by
  induction entries with
  | nil => exact .inl (mem_entryOf h)
  | cons entry rest ih =>
    unfold alterIn at h
    split at h
    · rw [List.map_append, List.mem_append] at h
      exact h.imp mem_entryOf id
    · split at h
      · rw [List.map_append, List.mem_append] at h
        exact h.imp mem_entryOf (List.mem_cons_of_mem _)
      · rcases List.mem_cons.mp h with h | h
        · exact .inr (h ▸ List.mem_cons_self)
        · exact (ih h).imp id (List.mem_cons_of_mem _)

theorem sorted_entryOf_append {name : String} {count : Option UInt64} {names : List String}
    (h : names.Pairwise (· < ·)) (hlt : ∀ n ∈ names, name < n) :
    ((entryOf name count).map Prod.fst ++ names).Pairwise (· < ·) := by
  cases count with
  | none => exact h
  | some _ => exact List.pairwise_cons.mpr ⟨hlt, h⟩

theorem sorted_alterIn {name : String} {change : Option UInt64 → Option UInt64}
    {entries : List (String × UInt64)} (h : (entries.map Prod.fst).Pairwise (· < ·)) :
    ((alterIn name change entries).map Prod.fst).Pairwise (· < ·) := by
  induction entries with
  | nil => simpa [alterIn] using @sorted_entryOf_append name (change none) [] .nil (by simp)
  | cons entry rest ih =>
    have hn := List.pairwise_cons.mp h
    unfold alterIn
    split
    · next hlt =>
      rw [List.map_append]
      refine sorted_entryOf_append h fun x hx => ?_
      rcases List.mem_cons.mp hx with rfl | hx
      · exact hlt
      · exact String.lt_trans hlt (hn.1 x hx)
    · next hle =>
      split
      · next heq =>
        rw [List.map_append]
        exact sorted_entryOf_append hn.2 fun x hx => heq ▸ hn.1 x hx
      · next hne =>
        refine List.pairwise_cons.mpr ⟨fun x hx => ?_, ih hn.2⟩
        rcases mem_alterIn hx with rfl | hx
        · refine String.not_le.mp fun hge => hne ?_
          exact String.le_antisymm hge (String.not_lt.mp hle)
        · exact hn.1 x hx

/-- Nothing is held. -/
def empty : Inventory := ⟨[], .nil⟩

instance : EmptyCollection Inventory := ⟨empty⟩
instance : Inhabited Inventory := ⟨empty⟩

/-- The inventory with the count of `name` changed by `change`, where `none` is no entry. -/
def alter (inventory : Inventory) (name : String)
    (change : Option UInt64 → Option UInt64) : Inventory :=
  ⟨alterIn name change inventory.entries, sorted_alterIn inventory.sorted⟩

/-- The entry of `name`, if there is one. -/
def get? (inventory : Inventory) (name : String) : Option UInt64 :=
  inventory.entries.lookup name

/-- How many copies of `name` are held. -/
def count (inventory : Inventory) (name : String) : UInt64 :=
  (inventory.get? name).getD 0

theorem lookup_cons_of_ne {x n : String} (h : x ≠ n) (value : UInt64)
    (rest : List (String × UInt64)) : ((n, value) :: rest).lookup x = rest.lookup x := by
  rw [List.lookup_cons, beq_false_of_ne h]

theorem lookup_of_not_mem {x : String} {entries : List (String × UInt64)}
    (h : x ∉ entries.map Prod.fst) : entries.lookup x = none := by
  induction entries with
  | nil => rfl
  | cons entry rest ih =>
    rw [List.map_cons, List.mem_cons, not_or] at h
    rw [lookup_cons_of_ne h.1, ih h.2]

theorem lookup_entryOf_append {name : String} (value : Option UInt64)
    {rest : List (String × UInt64)} (h : name ∉ rest.map Prod.fst) :
    (entryOf name value ++ rest).lookup name = value := by
  cases value with
  | none => exact lookup_of_not_mem h
  | some v => simp [entryOf]

theorem lookup_entryOf_append_of_ne {name x : String} (hne : x ≠ name) (value : Option UInt64)
    (rest : List (String × UInt64)) : (entryOf name value ++ rest).lookup x = rest.lookup x := by
  cases value with
  | none => rfl
  | some v => exact lookup_cons_of_ne hne v rest

theorem lookup_alterIn {name x : String} {change : Option UInt64 → Option UInt64}
    {entries : List (String × UInt64)} (h : (entries.map Prod.fst).Pairwise (· < ·)) :
    (alterIn name change entries).lookup x =
      if x = name then change (entries.lookup name) else entries.lookup x := by
  induction entries with
  | nil =>
    have key : alterIn name change [] = entryOf name (change none) ++ [] := by simp [alterIn]
    rw [key]
    by_cases hx : x = name
    · subst hx
      have hnot : x ∉ ([] : List (String × UInt64)).map Prod.fst := List.not_mem_nil
      rw [lookup_entryOf_append _ hnot, if_pos rfl]
      rfl
    · rw [lookup_entryOf_append_of_ne hx, if_neg hx]
  | cons entry rest ih =>
    obtain ⟨n, value⟩ := entry
    obtain ⟨hn, hrest⟩ := List.pairwise_cons.mp h
    unfold alterIn
    split
    · next hlt =>
      have hnot : name ∉ ((n, value) :: rest).map Prod.fst := by
        intro hm
        rcases List.mem_cons.mp hm with rfl | hm
        · exact String.lt_irrefl _ hlt
        · exact String.lt_asymm hlt (hn name hm)
      by_cases hx : x = name
      · subst hx
        rw [lookup_entryOf_append _ hnot, if_pos rfl, lookup_of_not_mem hnot]
      · rw [lookup_entryOf_append_of_ne hx, if_neg hx]
    · split
      · next heq =>
        subst heq
        have hnot : name ∉ rest.map Prod.fst := fun hm => String.lt_irrefl _ (hn name hm)
        by_cases hx : x = name
        · subst hx
          rw [lookup_entryOf_append _ hnot, if_pos rfl, List.lookup_cons_self]
        · rw [lookup_entryOf_append_of_ne hx, if_neg hx, lookup_cons_of_ne hx]
      · next hne =>
        by_cases hx : x = n
        · subst hx
          rw [List.lookup_cons_self, if_neg (Ne.symm hne), List.lookup_cons_self]
        · rw [lookup_cons_of_ne hx, lookup_cons_of_ne hx, lookup_cons_of_ne hne, ih hrest]

/-- Changing the entry of one name changes that entry alone. -/
theorem get?_alter (inventory : Inventory) (name x : String)
    (change : Option UInt64 → Option UInt64) :
    (inventory.alter name change).get? x =
      if x = name then change (inventory.get? name) else inventory.get? x :=
  lookup_alterIn inventory.sorted

/-- The inventory with `count` more copies of `name`. -/
def add (inventory : Inventory) (name : String) (count : UInt64) : Inventory :=
  inventory.alter name fun held => some (Capped.add (held.getD 0) count)

/-- Adding copies of one name adds them, capped, to its count alone. -/
theorem count_add (inventory : Inventory) (name x : String) (n : UInt64) :
    (inventory.add name n).count x =
      if x = name then Capped.add (inventory.count name) n else inventory.count x := by
  unfold count add
  rw [get?_alter]
  split <;> rfl

/-- What is left of `held` copies when up to `count` are taken; nothing left is no entry. -/
def leftOver (count held : UInt64) : Option UInt64 :=
  if held ≤ count then none else some (held - count)

/-- What is left is what was held but for what was taken. -/
theorem getD_leftOver (count held : UInt64) :
    (leftOver count held).getD 0 = held - min count held := by
  have hmin : min count held = if count ≤ held then count else held := rfl
  rw [leftOver, hmin]
  split
  · next hall =>
    have hzero : 0 = held - held := (UInt64.sub_self held).symm
    split
    · next hle => rwa [UInt64.le_antisymm hle hall]
    · exact hzero
  · next hmore => rw [if_pos (UInt64.le_of_lt (UInt64.not_le.mp hmore)), Option.getD_some]

/-- No entry is left with a count of zero. -/
theorem leftOver_ne_zero (count held : UInt64) : leftOver count held ≠ some 0 := by
  intro hleft
  rw [leftOver] at hleft
  split at hleft
  · cases hleft
  · next hmore =>
    have hdifference : held - count = 0 := Option.some.inj hleft
    have hall : held = count := by grind
    exact hmore (UInt64.le_of_eq hall)

/-- Takes up to `count` copies of `name`, and says how many were taken. -/
def remove (inventory : Inventory) (name : String) (count : UInt64) : UInt64 × Inventory :=
  (min count (inventory.count name), inventory.alter name (·.bind (leftOver count)))

/-- Taking copies of one name takes them from its count alone, down to nothing. -/
theorem count_remove (inventory : Inventory) (name x : String) (n : UInt64) :
    (inventory.remove name n).2.count x =
      if x = name then inventory.count name - (inventory.remove name n).1
      else inventory.count x := by
  unfold remove count
  rw [get?_alter]
  split
  · cases inventory.get? name with
    | none =>
      -- taking of no entry leaves what taking of zero copies does
      have hleft := getD_leftOver n 0
      rwa [leftOver, if_pos UInt64.zero_le] at hleft
    | some held => exact getD_leftOver n held
  · rfl

/-- One copy for each time a name is listed. -/
def ofNames (names : List String) : Inventory :=
  names.foldl (fun inventory name => inventory.add name 1) empty

/-- What an inventory holds. -/
def holdings (inventory : Inventory) : Holdings := fun name count => count ≤ inventory.count name

end Inventory

end Reachability
