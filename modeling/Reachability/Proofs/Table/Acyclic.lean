import Reachability.Proofs.Table.Compiled
import Reachability.Proofs.Table.Cycle

/-!
# Table — the check of descents

The entries of a table are the nodes of a graph, and its edges lead from each entry to those whose
trees its own tree may enter (`Edge`).  The check passes exactly if the graph has no cycle, and
otherwise it reports the names along one (`checkDescents_spec`).
-/

namespace Reachability.Descent

variable {entries : List Entry} {capabilities : Capabilities} {i j : Nat}

/-- The tree of the first entry may enter that of the second one: it has it as a location, or it
calls the function that looks for gear, and the second one is gear. -/
inductive Edge (entries : List Entry) (capabilities : Capabilities) : Nat → Nat → Prop
  | location {i j : Nat} {entry : Entry} {sign : Bool} :
      entries[i]? = some entry → Condition.Inside (.location sign j) entry.tree →
      Edge entries capabilities i j
  | gear {i : Nat} {entry : Entry} {sign : Bool} {argument : Option Argument}
      {gear : List (Nat × UInt64)} {group : Nat × UInt64} :
      entries[i]? = some entry → Condition.Inside (.call sign .gearPower argument) entry.tree →
      gear ∈ capabilities.gearTables → group ∈ gear → Edge entries capabilities i group.1

/-- An edge starts at an entry. -/
theorem Edge.lt (h : Edge entries capabilities i j) : i < entries.length := by
  cases h with
  | location hentry _ | gear hentry _ _ _ => exact (List.getElem?_eq_some_iff.mp hentry).1

/-- The search goes along the edges. -/
theorem leads_descentsOf_iff :
    Leads (descentsOf entries capabilities) i j ↔ Edge entries capabilities i j := by
  have hgear : j ∈ capabilities.gear ↔ ∃ gear ∈ capabilities.gearTables, ∃ group ∈ gear,
      group.1 = j := by
    simp only [Capabilities.gear, List.mem_map, List.mem_flatten]
    grind
  unfold Leads descentsOf
  constructor
  · intro h
    split at h
    · cases h
    · next entry hentry =>
      rcases Condition.mem_descents_iff.mp h with ⟨sign, hin⟩ | ⟨⟨sign, argument, hin⟩, h⟩
      · exact .location hentry hin
      · obtain ⟨gear, hmem, group, hgroup, rfl⟩ := hgear.mp h
        exact .gear hentry hin hmem hgroup
  · intro h
    cases h with
    | location hentry hin =>
      rw [hentry]
      exact Condition.mem_descents_iff.mpr (.inl ⟨_, hin⟩)
    | gear hentry hin hmem hgroup =>
      rw [hentry]
      exact Condition.mem_descents_iff.mpr
        (.inr ⟨⟨_, _, hin⟩, hgear.mpr ⟨_, hmem, _, hgroup, rfl⟩⟩)

/-- The trees that may be entered are those to which edges lead. -/
theorem mayEnter_iff {table : Table} : table.MayEnter i j ↔
    Relation.ReflTransGen (Edge table.entries table.capabilities) i j := by
  constructor
  · intro h
    induction h with
    | start => exact .refl
    | descend _ hnext ih => exact ih.tail (leads_descentsOf_iff.mp hnext)
  · intro h
    induction h with
    | refl => exact .start
    | tail _ hedge ih => exact .descend ih (leads_descentsOf_iff.mpr hedge)

/-- Every node of a cycle has one before it. -/
theorem IsCycle.exists_leads {next : Nat → List Nat} {cycle : List Nat} (h : IsCycle next cycle)
    {m : Nat} (hm : m ∈ cycle) : ∃ n, Leads next n m := by
  obtain ⟨htwo, hclosed, hedges, -⟩ := h
  have hstep := List.isChain_iff_getElem.mp hedges
  have hnext (k : Nat) (hk : k + 1 < cycle.length) : ∃ n, Leads next n cycle[k + 1] :=
    ⟨_, hstep k hk⟩
  obtain ⟨k, hk, rfl⟩ := List.mem_iff_getElem.mp hm
  cases k with
  | zero =>
    -- the first node is the last one
    obtain ⟨last, hlast⟩ := Nat.exists_eq_add_of_le' htwo
    have hbelow : last + 1 < cycle.length := by omega
    have hlength : cycle.length - 1 = last + 1 := by omega
    rw [List.head?_eq_getElem?, List.getLast?_eq_getElem?, hlength, List.getElem?_eq_getElem hk,
      List.getElem?_eq_getElem hbelow] at hclosed
    rw [Option.some.inj hclosed]
    exact hnext last hbelow
  | succ k => exact hnext k hk

/-- The names along indices of entries. -/
theorem forall₂_names {indices : List Nat} (h : ∀ i ∈ indices, i < entries.length) :
    List.Forall₂ (fun i name => (entries[i]?).map Entry.name = some name) indices
      (indices.filterMap fun i => (entries[i]?).map Entry.name) := by
  induction indices with
  | nil => exact .nil
  | cons i rest ih =>
    obtain ⟨hi, hrest⟩ := List.forall_mem_cons.mp h
    have hname : (entries[i]?).map Entry.name = some entries[i].name := by
      rw [List.getElem?_eq_getElem hi]
      rfl
    simp only [List.filterMap_cons, hname]
    exact .cons hname (ih hrest)

/-- The check of descents passes exactly if no entry leads back to itself.  Otherwise it reports the
names of entries along a cycle: two or more, of which each one leads to the next, the last is the
first, and no other is met twice. -/
theorem checkDescents_spec (hrange : ∀ i j, Edge entries capabilities i j → j < entries.length) :
    (checkDescents entries capabilities = .ok () ↔
        ∀ i, ¬Relation.TransGen (Edge entries capabilities) i i) ∧
      ∀ error, checkDescents entries capabilities = .error error →
        ∃ path cycle, error = .cyclicDependency path ∧
          List.Forall₂ (fun i name => (entries[i]?).map Entry.name = some name) cycle path ∧
          2 ≤ cycle.length ∧ cycle.head? = cycle.getLast? ∧
          cycle.IsChain (Edge entries capabilities) ∧ cycle.tail.Nodup := by
  have hleads : Leads (descentsOf entries capabilities) = Edge entries capabilities :=
    funext fun i => funext fun j => propext leads_descentsOf_iff
  constructor
  · rw [checkDescents_eq_ok_iff, cyclicNames?, Option.map_eq_none_iff, ← hleads]
    exact findCycle?_eq_none_iff fun n m h =>
      have hedge := leads_descentsOf_iff.mp h
      ⟨hedge.lt, hrange n m hedge⟩
  · intro error h
    unfold checkDescents cyclicNames? at h
    split at h
    · next path hpath =>
      cases h
      obtain ⟨cycle, hcycle, rfl⟩ := Option.map_eq_some_iff.mp hpath
      have hiscycle := isCycle_of_findCycle? hcycle
      refine ⟨_, cycle, rfl, forall₂_names fun j hj => ?_, hiscycle.two_le, hiscycle.closed, ?_,
        hiscycle.nodup⟩
      · obtain ⟨i, hi⟩ := hiscycle.exists_leads hj
        exact hrange i j (leads_descentsOf_iff.mp hi)
      · rw [← hleads]
        exact hiscycle.edges
    · cases h

/-- A bench in a cave that takes the gear of its forge. -/
def forgeEntries : List Entry := [
  { name := "Bench", flags := ∅, tree := .group true none [.location true 1],
    itemName := none, line := 1, copy := none },
  { name := "Cave", flags := ∅, tree := .group true none [.call true .gearPower (some (.number 5))],
    itemName := none, line := 2, copy := none },
  { name := "Forge", flags := .ofList [(.weaponPower, some (.number 1))],
    tree := .group true none [.group false (some .or) [.item true 0 1, .location true 1]],
    itemName := none, line := 3, copy := none }]

/-- The forge is gear, whatever power the cave takes, and the bench is on the way to the cycle
only. -/
theorem checkDescents_spec_forgeEntries :
    (∀ i j, Edge forgeEntries { weapons := [(2, 1)] } i j → j < forgeEntries.length) ∧
      checkDescents forgeEntries { weapons := [(2, 1)] } =
        .error (.cyclicDependency ["Cave", "Forge", "Cave"]) ∧
      ∃ cycle, List.Forall₂ (fun i name => (forgeEntries[i]?).map Entry.name = some name) cycle
          ["Cave", "Forge", "Cave"] ∧
        cycle.IsChain (Edge forgeEntries { weapons := [(2, 1)] }) ∧ cycle.tail.Nodup := by
  have hlocations : ∀ entry ∈ forgeEntries, ∀ sign j,
      Condition.Inside (.location sign j) entry.tree → j < forgeEntries.length := by
    simp [forgeEntries, Condition.inside_group, Condition.inside_item, Condition.inside_location,
      Condition.inside_call]
  have hgear : ∀ gear ∈ Capabilities.gearTables { weapons := [(2, 1)] }, ∀ group ∈ gear,
      group.1 < forgeEntries.length := by decide
  have hrange : ∀ i j, Edge forgeEntries { weapons := [(2, 1)] } i j → j < forgeEntries.length := by
    rintro i j (⟨hentry, hin⟩ | ⟨-, -, hmem, hgroup⟩)
    · exact hlocations _ (List.mem_of_getElem? hentry) _ _ hin
    · exact hgear _ hmem _ hgroup
  have hcheck : checkDescents forgeEntries { weapons := [(2, 1)] } =
      .error (.cyclicDependency ["Cave", "Forge", "Cave"]) := rfl
  obtain ⟨path, cycle, hpath, hnames, -, -, hedges, hnodup⟩ :=
    (checkDescents_spec hrange).2 _ hcheck
  cases hpath
  exact ⟨hrange, hcheck, cycle, hnames, hedges, hnodup⟩

end Reachability.Descent
