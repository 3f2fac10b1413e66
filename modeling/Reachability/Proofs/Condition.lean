import Reachability.Table.Descent
import Reachability.Table.Resolve

/-!
# Condition — what stands inside a condition

Two properties of whole trees decide whether a tree can be evaluated: every group of several
conditions has an operator (`Joined`), so that no bare group stands inside (`BareGroup`), and every
call suits its function (`Suited`).
-/

namespace Reachability.Condition

variable {ρ φ : Type}

/-- A condition stands inside itself and inside every group around it. -/
inductive Inside (c : Condition ρ φ) : Condition ρ φ → Prop
  | self : Inside c c
  | member {sign : Bool} {operator : Option Operator} {members : List (Condition ρ φ)}
      {d : Condition ρ φ} : d ∈ members → Inside c d → Inside c (.group sign operator members)

section
variable {sign : Bool} {operator : Option Operator} {c : Condition ρ φ}

theorem inside_item {target : ρ} {quantity : UInt64} :
    Inside c (.item sign target quantity) ↔ c = .item sign target quantity := by
  constructor
  · rintro ⟨⟩
    rfl
  · rintro rfl
    exact .self

theorem inside_location {target : ρ} :
    Inside c (.location sign target) ↔ c = .location sign target := by
  constructor
  · rintro ⟨⟩
    rfl
  · rintro rfl
    exact .self

theorem inside_call {function : φ} {argument : Option Argument} :
    Inside c (.call sign function argument) ↔ c = .call sign function argument := by
  constructor
  · rintro ⟨⟩
    rfl
  · rintro rfl
    exact .self

/-- What stands inside a group is the group or stands inside a member. -/
theorem inside_group {members : List (Condition ρ φ)} :
    Inside c (.group sign operator members) ↔
      c = .group sign operator members ∨ ∃ d ∈ members, Inside c d := by
  constructor
  · rintro (_ | ⟨hd, h⟩)
    · exact .inl rfl
    · exact .inr ⟨_, hd, h⟩
  · rintro (rfl | ⟨d, hd, h⟩)
    · exact .self
    · exact .member hd h

end

/-- A group without an operator has at most one condition, at any depth. -/
def Joined (tree : Condition ρ φ) : Prop :=
  ∀ sign members, Inside (.group sign none members) tree → members.length ≤ 1

/-- A group of `count` conditions, more than one, stands inside without an operator. -/
def BareGroup (count : Nat) (tree : Condition ρ φ) : Prop :=
  1 < count ∧ ∃ sign members, Inside (.group sign none members) tree ∧ members.length = count

/-- A condition is joined if no bare group stands inside it. -/
theorem joined_iff {tree : Condition ρ φ} : tree.Joined ↔ ∀ count, ¬tree.BareGroup count := by
  constructor
  · rintro h count ⟨hcount, sign, members, hin, rfl⟩
    exact Nat.not_lt.mpr (h sign members hin) hcount
  · intro h sign members hin
    exact Nat.not_lt.mp fun hlength => h _ ⟨hlength, sign, members, hin, rfl⟩

/-- Every call suits its function, at any depth. -/
def Suited (tree : Tree) : Prop :=
  ∀ sign function argument, Inside (.call sign function argument) tree →
    suits function argument = true

section
variable {sign : Bool} {operator : Option Operator}

@[simp] theorem joined_item {target : ρ} {quantity : UInt64} :
    (item sign target quantity : Condition ρ φ).Joined :=
  nofun

@[simp] theorem joined_location {target : ρ} : (location sign target : Condition ρ φ).Joined :=
  nofun

@[simp] theorem joined_call {function : φ} {argument : Option Argument} :
    (call sign function argument : Condition ρ φ).Joined :=
  nofun

/-- A group is joined if it needs no operator or has one, and its members are joined. -/
@[simp] theorem joined_group {members : List (Condition ρ φ)} :
    (group sign operator members).Joined ↔
      (operator = none → members.length ≤ 1) ∧ ∀ c ∈ members, c.Joined := by
  constructor
  · refine fun h => ⟨?_, fun c hc sign members hin => h sign members (.member hc hin)⟩
    rintro rfl
    exact h sign members .self
  · rintro ⟨hlength, hmembers⟩ sign' members' hin
    cases hin with
    | self => exact hlength rfl
    | member hc hin => exact hmembers _ hc sign' members' hin

theorem not_bareGroup_item {target : ρ} {quantity : UInt64} {count : Nat} :
    ¬(item sign target quantity : Condition ρ φ).BareGroup count :=
  joined_iff.mp joined_item count

theorem not_bareGroup_location {target : ρ} {count : Nat} :
    ¬(location sign target : Condition ρ φ).BareGroup count :=
  joined_iff.mp joined_location count

theorem not_bareGroup_call {function : φ} {argument : Option Argument} {count : Nat} :
    ¬(call sign function argument : Condition ρ φ).BareGroup count :=
  joined_iff.mp joined_call count

/-- The bare groups in a group are those in its members, and itself if it lacks an operator. -/
theorem bareGroup_group {members : List (Condition ρ φ)} {count : Nat} :
    (group sign operator members).BareGroup count ↔
      (operator = none ∧ 1 < count ∧ members.length = count) ∨
        ∃ c ∈ members, c.BareGroup count := by
  constructor
  · rintro ⟨hcount, sign', members', hin, hlength⟩
    cases hin with
    | self => exact .inl ⟨rfl, hcount, hlength⟩
    | member hc hin => exact .inr ⟨_, hc, hcount, sign', members', hin, hlength⟩
  · rintro (⟨rfl, hcount, hlength⟩ | ⟨c, hc, hcount, sign', members', hin, hlength⟩)
    · exact ⟨hcount, sign, members, .self, hlength⟩
    · exact ⟨hcount, sign', members', .member hc hin, hlength⟩

theorem suited_item {target : Nat} {quantity : UInt64} : Suited (.item sign target quantity) :=
  nofun

theorem suited_location {target : Nat} : Suited (.location sign target) :=
  nofun

theorem suited_call {function : Builtin} {argument : Option Argument} :
    Suited (.call sign function argument) ↔ suits function argument = true := by
  refine ⟨fun h => h sign function argument .self, ?_⟩
  rintro h _ _ _ ⟨⟩
  exact h

/-- The calls in a group are those in its members. -/
theorem suited_group {members : List Tree} :
    Suited (.group sign operator members) ↔ ∀ c ∈ members, Suited c := by
  constructor
  · exact fun h c hc sign function argument hin => h sign function argument (.member hc hin)
  · intro h sign function argument hin
    cases hin with
    | member hc hin => exact h _ hc sign function argument hin

/-- A group refers to what its members refer to. -/
theorem mem_references_group {members : List (Condition ρ φ)} {target : ρ} :
    target ∈ (group sign operator members).references ↔ ∃ c ∈ members, target ∈ c.references := by
  rw [references, referencesAll_eq_flatMap, List.mem_flatMap]

/-- Evaluating a group may enter what evaluating its members may enter. -/
theorem mem_descents_group {gear : List Nat} {members : List Tree} {index : Nat} :
    index ∈ descents gear (.group sign operator members) ↔
      ∃ c ∈ members, index ∈ c.descents gear := by
  rw [descents, descentsAll_eq_flatMap, List.mem_flatMap]

end

/-- A tree leads only to rules it refers to and to gear. -/
theorem mem_of_mem_descents {gear : List Nat} {tree : Tree} {index : Nat}
    (h : index ∈ tree.descents gear) : index ∈ tree.references ∨ index ∈ gear := by
  induction tree using Condition.induct with
  | item sign target quantity => cases h
  | location sign target => exact .inl h
  | call sign function argument =>
    unfold descents at h
    split at h
    · exact .inr h
    · cases h
  | group sign operator members ih =>
    obtain ⟨c, hc, h⟩ := mem_descents_group.mp h
    exact (ih c hc h).imp_left fun h => mem_references_group.mpr ⟨c, hc, h⟩

/-- A condition refers to the rules whose items it asks for. -/
theorem mem_references_of_item {sign : Bool} {target : ρ} {quantity : UInt64}
    {tree : Condition ρ φ} (h : Inside (.item sign target quantity) tree) :
    target ∈ tree.references := by
  generalize hc : Condition.item sign target quantity = c at h
  induction h with
  | self =>
    subst hc
    exact List.mem_singleton_self target
  | member hd _ ih => exact mem_references_group.mpr ⟨_, hd, ih⟩

/-- A tree leads to the locations in it and, where it looks for gear, to the gear. -/
theorem mem_descents_iff {gear : List Nat} {tree : Tree} {index : Nat} :
    index ∈ tree.descents gear ↔ (∃ sign, Inside (.location sign index) tree) ∨
      (∃ sign argument, Inside (.call sign .gearPower argument) tree) ∧ index ∈ gear := by
  induction tree using Condition.induct with
  | item sign target quantity => simp [descents, inside_item]
  | location sign target => simp [descents, inside_location, eq_comm]
  | call sign function argument =>
    by_cases hgear : function = .gearPower
    · simp [descents, inside_call, hgear]
    · simp [descents, inside_call, hgear, Ne.symm hgear]
  | group sign operator members ih =>
    rw [mem_descents_group]
    simp only [inside_group, reduceCtorEq, false_or]
    constructor
    · rintro ⟨c, hc, h⟩
      rcases (ih c hc).mp h with ⟨s, hin⟩ | ⟨⟨s, argument, hin⟩, hindex⟩
      · exact .inl ⟨s, c, hc, hin⟩
      · exact .inr ⟨⟨s, argument, c, hc, hin⟩, hindex⟩
    · rintro (⟨s, c, hc, hin⟩ | ⟨⟨s, argument, c, hc, hin⟩, hindex⟩)
      · exact ⟨c, hc, (ih c hc).mpr (.inl ⟨s, hin⟩)⟩
      · exact ⟨c, hc, (ih c hc).mpr (.inr ⟨⟨s, argument, hin⟩, hindex⟩)⟩

end Reachability.Condition
