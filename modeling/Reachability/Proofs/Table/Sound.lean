import Reachability.Cache.Accept
import Reachability.Proofs.Condition
import Reachability.Proofs.Table.Order

/-!
# Table — sound tables

What compiling guarantees and what is checked again of a stored table (`Table.Sound`): names are
different, every index is below the number of rules, every call suits its function, and no descent
comes back to where it started.
-/

namespace Reachability

/-- Goals, each with its end, that have different names and end in order within `count` rules.
They follow goals called `seen`, the last of which ends at `previous`. -/
inductive GoalsFit (count : Nat) : List String → Nat → List (String × Nat) → Prop
  | nil {seen : List String} {previous : Nat} : GoalsFit count seen previous []
  | cons {seen : List String} {previous stop : Nat} {name : String} {rest : List (String × Nat)} :
      name ∉ seen → previous ≤ stop → stop ≤ count → GoalsFit count (name :: seen) stop rest →
      GoalsFit count seen previous ((name, stop) :: rest)

theorem GoalsFit.le {count previous : Nat} {seen : List String} {goals : List (String × Nat)}
    (h : GoalsFit count seen previous goals) {goal : String × Nat} (hgoal : goal ∈ goals) :
    goal.2 ≤ count := by
  induction h with
  | nil => cases hgoal
  | cons _ _ hle _ ih =>
    rcases List.mem_cons.mp hgoal with rfl | hgoal
    · exact hle
    · exact ih hgoal

/-- Labels that have different names and list only rewards in `declared`; they follow labels
called `seen`. -/
inductive LabelsFit (declared : List String) : List String → List Label → Prop
  | nil {seen : List String} : LabelsFit declared seen []
  | cons {seen : List String} {label : Label} {rest : List Label} :
      label.name ∉ seen → (∀ reward ∈ label.rewards, reward ∈ declared) →
      LabelsFit declared (label.name :: seen) rest → LabelsFit declared seen (label :: rest)

namespace Table

/-- A table whose names are different and whose references all lead somewhere, without coming back
to where they started. -/
structure Sound (table : Table) : Prop where
  names : table.names.Nodup
  references : ∀ entry ∈ table.entries, ∀ index ∈ entry.tree.references,
    index < table.entries.length
  calls : ∀ entry ∈ table.entries, entry.tree.Suited
  goals : GoalsFit table.entries.length [] 0 (table.goals.map fun goal => (goal.name, goal.stop))
  locations : ∀ goal ∈ table.goals, ∀ location ∈ goal.locations, location ∈ table.names
  labels : LabelsFit (table.rewards.map Reward.name) [] table.labels
  capabilities : ∀ index ∈ Cache.capabilityIndices table.capabilities,
    index < table.entries.length
  descents : cyclicNames? table.entries table.capabilities = none

/-- The conditions of all rules are joined. -/
def Joined (table : Table) : Prop := ∀ entry ∈ table.entries, entry.tree.Joined

end Table

/-! ### Descents of sound tables -/

/-- Gear is among the capabilities. -/
theorem Capabilities.mem_indices_of_mem_gear {capabilities : Capabilities} {index : Nat}
    (h : index ∈ capabilities.gear) : index ∈ Cache.capabilityIndices capabilities := by
  simp only [gear, gearTables, List.flatten_cons, List.flatten_nil, List.append_nil,
    List.map_append, List.mem_append] at h
  simp only [Cache.capabilityIndices, List.map_append, List.mem_append]
  tauto

/-- If the references of rules and the capabilities are in range, so are all descents. -/
theorem descentsOf_lt {entries : List Entry} {capabilities : Capabilities}
    (hreferences : ∀ entry ∈ entries, ∀ index ∈ entry.tree.references, index < entries.length)
    (hcapabilities : ∀ index ∈ Cache.capabilityIndices capabilities, index < entries.length)
    {start index : Nat} (h : index ∈ descentsOf entries capabilities start) :
    index < entries.length := by
  unfold descentsOf at h
  split at h
  · cases h
  · next entry hentry =>
    rcases Condition.mem_of_mem_descents h with h | h
    · exact hreferences entry (List.mem_of_getElem? hentry) index h
    · exact hcapabilities index (Capabilities.mem_indices_of_mem_gear h)

/-- The index of a name is that of an entry with this name. -/
theorem Table.exists_entry_of_indexOf? {table : Table} {name : String} {index : Nat}
    (h : table.indexOf? name = some index) :
    ∃ entry, table.entries[index]? = some entry ∧ entry.name = name := by
  obtain ⟨hlt, hname, -⟩ := List.findIdx?_eq_some_iff_getElem.mp h
  exact ⟨_, List.getElem?_eq_getElem hlt, eq_of_beq hname⟩

theorem Table.lt_of_indexOf? {table : Table} {name : String} {index : Nat}
    (h : table.indexOf? name = some index) : index < table.entries.length := by
  obtain ⟨entry, hentry, -⟩ := exists_entry_of_indexOf? h
  exact (List.getElem?_eq_some_iff.mp hentry).1

/-- Evaluating the tree of the entry `start` may enter the tree of an entry: the entry is `start`,
or among the descents of one whose tree may be entered. -/
inductive Table.MayEnter (table : Table) (start : Nat) : Nat → Prop
  | start : MayEnter table start start
  | descend {i j : Nat} : MayEnter table start i →
      j ∈ descentsOf table.entries table.capabilities i → MayEnter table start j

namespace Table.Sound

variable {table : Table}

/-- The entries of a sound table can be listed so that each tree only enters trees after it. -/
theorem exists_settled (h : table.Sound) :
    ∃ done, Descent.Settled (descentsOf table.entries table.capabilities) done ∧
      ∀ n, n ∈ done ↔ n < table.entries.length :=
  Descent.exists_settled (fun _ _ _ hm => descentsOf_lt h.references h.capabilities hm)
    (Option.map_eq_none_iff.mp h.descents)

/-- In a sound table the index of an entry is that of its name. -/
theorem indexOf?_name (h : table.Sound) {i : Nat} {entry : Entry}
    (hentry : table.entries[i]? = some entry) : table.indexOf? entry.name = some i := by
  obtain ⟨hi, rfl⟩ := List.getElem?_eq_some_iff.mp hentry
  refine List.findIdx?_eq_some_iff_getElem.mpr ⟨hi, beq_self_eq_true _, fun j hji hname => ?_⟩
  have hmap : (table.entries.map Entry.name)[j]? = (table.entries.map Entry.name)[i]? := by
    rw [List.getElem?_map, List.getElem?_map, List.getElem?_eq_getElem (Nat.lt_trans hji hi),
      hentry, Option.map_some, Option.map_some, eq_of_beq hname]
  have hlt : j < (table.entries.map Entry.name).length := by
    rw [List.length_map]
    exact Nat.lt_trans hji hi
  exact Nat.ne_of_lt hji ((List.getElem?_inj hlt h.names).mp hmap)

/-- In a sound table every entry is found under its name. -/
theorem entry?_eq_some_iff (h : table.Sound) {name : String} {entry : Entry} :
    table.entry? name = some entry ↔ entry ∈ table.entries ∧ entry.name = name := by
  constructor
  · intro hfound
    unfold entry? at hfound
    exact ⟨List.mem_of_find?_eq_some hfound, by simpa using List.find?_some hfound⟩
  · rintro ⟨hentry, rfl⟩
    obtain ⟨i, hi⟩ := List.mem_iff_getElem?.mp hentry
    rw [entry?_eq_getElem?, h.indexOf?_name hi, Option.bind_some, hi]

/-- The scope of a goal of a sound table lies within the table. -/
theorem stop_le (h : table.Sound) {goal : Goal} (hgoal : goal ∈ table.goals) :
    goal.stop ≤ table.entries.length :=
  h.goals.le (List.mem_map_of_mem hgoal)

end Table.Sound

end Reachability
