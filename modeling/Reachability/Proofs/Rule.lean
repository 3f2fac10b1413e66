import Reachability.Proofs.Condition
import Reachability.Rule.Basic

/-!
# Rule — names and shape

What is said of every name in a rule, at any depth of its conditions (`Rule.Named`), and what a
rule looks like apart from its names (`Rule.Shaped`): quantities are positive, and a level of
conditions has an operator exactly if it has several.
-/

namespace Reachability

/-- The argument has the property `word`, if it is a text. -/
def TextIs (word : String → Prop) (argument : Option Argument) : Prop :=
  ∀ text, argument = some (.text text) → word text

instance (word : String → Prop) [DecidablePred word] : ∀ argument, Decidable (TextIs word argument)
  | none | some (.number _) => .isTrue nofun
  | some (.text text) => decidable_of_iff (word text)
      ⟨fun h _ heq => by cases heq; exact h, fun h => h text rfl⟩

namespace Condition

/-- The names of items and locations and the texts of arguments have the property `word`, the
names of functions the property `function`, at any depth. -/
structure Named (word function : String → Prop) (c : Statement) : Prop where
  items : ∀ sign name quantity, Inside (.item sign name quantity) c → word name
  locations : ∀ sign name, Inside (.location sign name) c → word name
  calls : ∀ sign name argument, Inside (.call sign name argument) c →
    function name ∧ TextIs word argument

/-- Quantities are positive, and groups are not empty and have an operator exactly if they have
several members, at any depth. -/
structure Shaped (c : Statement) : Prop where
  quantities : ∀ sign name quantity, Inside (.item sign name quantity) c → 1 ≤ quantity
  groups : ∀ sign operator members, Inside (.group sign operator members) c →
    members ≠ [] ∧ (operator = none ↔ members.length = 1)

section
variable {word function : String → Prop} {sign : Bool}

theorem named_item {name : String} {quantity : UInt64} :
    Named word function (.item sign name quantity) ↔ word name := by
  refine ⟨fun h => h.items sign name quantity .self, fun h => ⟨?_, nofun, nofun⟩⟩
  rintro _ _ _ ⟨⟩
  exact h

theorem named_location {name : String} :
    Named word function (.location sign name) ↔ word name := by
  refine ⟨fun h => h.locations sign name .self, fun h => ⟨nofun, ?_, nofun⟩⟩
  rintro _ _ ⟨⟩
  exact h

theorem named_call {name : String} {argument : Option Argument} :
    Named word function (.call sign name argument) ↔ function name ∧ TextIs word argument := by
  refine ⟨fun h => h.calls sign name argument .self, fun h => ⟨nofun, nofun, ?_⟩⟩
  rintro _ _ _ ⟨⟩
  exact h

/-- The names in a group are those in its members. -/
theorem named_group {operator : Option Operator} {members : List Statement} :
    Named word function (.group sign operator members) ↔
      ∀ c ∈ members, Named word function c := by
  constructor
  · intro h c hc
    exact ⟨fun sign name quantity hin => h.items sign name quantity (.member hc hin),
      fun sign name hin => h.locations sign name (.member hc hin),
      fun sign name argument hin => h.calls sign name argument (.member hc hin)⟩
  · intro h
    constructor
    case items =>
      rintro sign name quantity (_ | ⟨hc, hin⟩)
      exact (h _ hc).items sign name quantity hin
    case locations =>
      rintro sign name (_ | ⟨hc, hin⟩)
      exact (h _ hc).locations sign name hin
    case calls =>
      rintro sign name argument (_ | ⟨hc, hin⟩)
      exact (h _ hc).calls sign name argument hin

/-- Two properties of the names make a third one. -/
theorem Named.and {word' function' word'' function'' : String → Prop} {c : Statement}
    (h : Named word function c) (h' : Named word' function' c)
    (hword : ∀ name, word name → word' name → word'' name)
    (hfunction : ∀ name, function name → function' name → function'' name) :
    Named word'' function'' c := by
  constructor
  case items =>
    intro sign name quantity hin
    exact hword name (h.items sign name quantity hin) (h'.items sign name quantity hin)
  case locations =>
    intro sign name hin
    exact hword name (h.locations sign name hin) (h'.locations sign name hin)
  case calls =>
    intro sign name argument hin
    obtain ⟨hname, hargument⟩ := h.calls sign name argument hin
    obtain ⟨hname', hargument'⟩ := h'.calls sign name argument hin
    exact ⟨hfunction name hname hname',
      fun text htext => hword text (hargument text htext) (hargument' text htext)⟩

theorem shaped_item {name : String} {quantity : UInt64} :
    Shaped (.item sign name quantity) ↔ 1 ≤ quantity := by
  refine ⟨fun h => h.quantities sign name quantity .self, fun h => ⟨?_, nofun⟩⟩
  rintro _ _ _ ⟨⟩
  exact h

theorem shaped_location {name : String} : Shaped (.location sign name) := ⟨nofun, nofun⟩

theorem shaped_call {name : String} {argument : Option Argument} :
    Shaped (.call sign name argument) :=
  ⟨nofun, nofun⟩

/-- The shape of a group is its own and that of its members. -/
theorem shaped_group {operator : Option Operator} {members : List Statement} :
    Shaped (.group sign operator members) ↔
      (members ≠ [] ∧ (operator = none ↔ members.length = 1)) ∧ ∀ c ∈ members, Shaped c := by
  constructor
  · intro h
    refine ⟨h.groups sign operator members .self, fun c hc => ⟨?_, ?_⟩⟩
    · exact fun sign name quantity hin => h.quantities sign name quantity (.member hc hin)
    · exact fun sign operator members hin => h.groups sign operator members (.member hc hin)
  · rintro ⟨hshape, h⟩
    constructor
    case quantities =>
      rintro sign name quantity (_ | ⟨hc, hin⟩)
      exact (h _ hc).quantities sign name quantity hin
    case groups =>
      rintro sign operator members (_ | ⟨hc, hin⟩)
      · exact hshape
      · exact (h _ hc).groups sign operator members hin

end

end Condition

namespace Rule

/-- The name of the rule, the text arguments of its flags and the names in its conditions have the
property `word`, the names of functions the property `function`. -/
structure Named (word function : String → Prop) (rule : Rule) : Prop where
  name : word rule.name
  flags : ∀ entry ∈ rule.flags.entries, TextIs word entry.2
  conditions : ∀ c ∈ rule.conditions, c.Named word function

/-- The conditions of the rule are in shape, and several of them have an operator. -/
structure Shaped (rule : Rule) : Prop where
  conditions : ∀ c ∈ rule.conditions, c.Shaped
  operator : rule.operator = none ↔ rule.conditions.length ≤ 1

/-- Two properties of the names make a third one. -/
theorem Named.and {word function word' function' word'' function'' : String → Prop} {rule : Rule}
    (h : rule.Named word function) (h' : rule.Named word' function')
    (hword : ∀ name, word name → word' name → word'' name)
    (hfunction : ∀ name, function name → function' name → function'' name) :
    rule.Named word'' function'' := by
  constructor
  case name => exact hword rule.name h.name h'.name
  case flags =>
    intro entry hentry text htext
    exact hword text (h.flags entry hentry text htext) (h'.flags entry hentry text htext)
  case conditions =>
    exact fun c hc => (h.conditions c hc).and (h'.conditions c hc) hword hfunction

end Rule

end Reachability
