import Reachability.Proofs.Session.Marking

/-!
# Session — what marking finds

* `Relevant`: the least set of rules that holds the locations and roots in scope and is closed
  under what the tree of a rule pulls in.
* `ProgressionName`: the item names of the roots and the names that the trees of relevant rules
  refer to.

Marking finds no other names, whatever the order in which it walks (`within_markInto`): what new
names and walks keep, marking a tree keeps (`markTree_induct`), and what passes from the walks below
to marking a tree holds of every walk (`walkWithin_induct`).
-/

namespace Reachability

namespace Session

variable {session : Session}

/-! ### Relevant rules -/

/-- A group of gear has at least the power `n` and suits the preferred class. -/
def Suits (session : Session) (n : UInt64) (group : Nat × UInt64) : Prop :=
  n ≤ group.2 ∧ ∃ entry, session.table.entries[group.1]? = some entry ∧
    session.options.classPreference.accepts entry.flags = true

/-- The first group of some gear that suits. -/
def FirstSuiting (session : Session) (n : UInt64) (gear : List (Nat × UInt64))
    (group : Nat × UInt64) : Prop :=
  ∃ before after, gear = before ++ group :: after ∧ session.Suits n group ∧
    ∀ g ∈ before, ¬session.Suits n g

/-- Marking a tree goes on to the tree of a rule: that of a location it refers to, that of an item
that is an event, and for `@gear_power` that of the first suiting group of each table of gear. -/
inductive Pulls (session : Session) (tree : Tree) : Nat → Prop
  | location {sign : Bool} {target : Nat} :
      Condition.Inside (.location sign target) tree → Pulls session tree target
  | event {sign : Bool} {target : Nat} {quantity : UInt64} {found : Entry} :
      Condition.Inside (.item sign target quantity) tree →
      session.table.entries[target]? = some found → (session.role found).isEvent = true →
      Pulls session tree target
  | gear {sign : Bool} {n : UInt64} {gear : List (Nat × UInt64)} {group : Nat × UInt64} :
      Condition.Inside (.call sign .gearPower (some (.number n))) tree →
      gear ∈ session.table.capabilities.gearTables → session.FirstSuiting n gear group →
      Pulls session tree group.1

/-- A rule whose conditions matter: a root or a location in scope, or a rule that the tree of one
pulls in. -/
inductive Relevant (session : Session) : Nat → Prop
  | seed {i : Nat} {entry : Entry} :
      i < session.scope → session.table.entries[i]? = some entry →
      (entry.flags.isRoot session.options = true ∨ (session.role entry).location = true) →
      Relevant session i
  | pull {i j : Nat} {entry : Entry} :
      Relevant session i → session.table.entries[i]? = some entry → session.Pulls entry.tree j →
      Relevant session j

/-- A name that is progression: the item name of a root in scope, or what a rule is held under
that the tree of a relevant rule refers to. -/
inductive ProgressionName (session : Session) : String → Prop
  | root {i : Nat} {entry : Entry} :
      i < session.scope → session.table.entries[i]? = some entry →
      entry.flags.isRoot session.options = true → ProgressionName session entry.defaultItemName
  | target {i target : Nat} {entry found : Entry} :
      session.Relevant i → session.table.entries[i]? = some entry →
      target ∈ entry.tree.references → session.table.entries[target]? = some found →
      ProgressionName session (session.heldName found)

/-- No two rules are held under the same name. -/
def NamesDiffer (session : Session) : Prop :=
  (session.table.entries.map session.heldName).Nodup

/-- What another rule is held under is not the item name of a root in scope. -/
def RootsApart (session : Session) : Prop :=
  ∀ i < session.scope, ∀ root, session.table.entries[i]? = some root →
    root.flags.isRoot session.options = true →
    ∀ j found, session.table.entries[j]? = some found →
      session.heldName found = root.defaultItemName → j = i

/-! ### What a step of marking does -/

variable {walk : Nat → Marks → Except QueryError Marks} {marks marks' : Marks}

theorem entryAt_eq_ok_iff {index : Nat} {entry : Entry} :
    session.entryAt index = .ok entry ↔ session.table.entries[index]? = some entry := by
  unfold entryAt
  cases session.table.entries[index]? <;> simp

/-- An answer about gear says whether it suits. -/
theorem isAdequate_spec {n : UInt64} {group : Nat × UInt64} {adequate : Bool}
    (h : session.isAdequate n group = .ok adequate) :
    adequate = true ↔ session.Suits n group := by
  unfold isAdequate at h
  by_cases hpower : group.2 < n
  · rw [if_pos hpower] at h
    cases h
    simp [Suits, UInt64.not_le.mpr hpower]
  · rw [if_neg hpower] at h
    obtain ⟨entry, hentry, h⟩ := Except.bind_eq_ok_iff.mp h
    cases h
    simp [Suits, UInt64.not_lt.mp hpower, entryAt_eq_ok_iff.mp hentry]

/-- The first group that suits is the first of all, or the first one suits not and it is the first
of the others. -/
theorem firstSuiting_cons {n : UInt64} {first group : Nat × UInt64}
    {rest : List (Nat × UInt64)} :
    session.FirstSuiting n (first :: rest) group ↔
      session.Suits n first ∧ group = first ∨
        ¬session.Suits n first ∧ session.FirstSuiting n rest group := by
  constructor
  · rintro ⟨before, after, heq, hsuits, hbefore⟩
    cases before with
    | nil =>
      obtain ⟨rfl, rfl⟩ := List.cons.inj heq
      exact .inl ⟨hsuits, rfl⟩
    | cons g before =>
      obtain ⟨rfl, rfl⟩ := List.cons.inj heq
      exact .inr ⟨hbefore _ List.mem_cons_self, before, after, rfl, hsuits,
        fun g hg => hbefore g (List.mem_cons_of_mem _ hg)⟩
  · rintro (⟨hsuits, rfl⟩ | ⟨hnot, before, after, rfl, hsuits, hbefore⟩)
    · exact ⟨[], rest, rfl, hsuits, nofun⟩
    · exact ⟨first :: before, after, rfl, hsuits, List.forall_mem_cons.mpr ⟨hnot, hbefore⟩⟩

/-- What is found is the first group that suits. -/
theorem firstAdequate?_spec {n : UInt64} {gear : List (Nat × UInt64)} {group : Nat × UInt64}
    {found : Option (Nat × UInt64)} (h : session.firstAdequate? n gear = .ok found) :
    found = some group ↔ session.FirstSuiting n gear group := by
  induction gear with
  | nil =>
    cases h
    simp [FirstSuiting]
  | cons first rest ih =>
    rw [firstAdequate?, List.findM?] at h
    obtain ⟨adequate, hadequate, h⟩ := Except.bind_eq_ok_iff.mp h
    rw [firstSuiting_cons, ← isAdequate_spec hadequate]
    cases adequate with
    | true =>
      cases h
      simp [eq_comm]
    | false => simpa using ih h

/-- An item that is an event is walked if its name is new; no other item is. -/
theorem markTree_item_cases {sign : Bool} {target : Nat} {quantity : UInt64}
    (h : session.markTree walk (.item sign target quantity) marks = .ok marks') :
    ∃ found, session.table.entries[target]? = some found ∧
      ((session.role found).isEvent = true ∧ session.heldName found ∉ marks.names ∧
          walk target (marks.addName (session.heldName found)) = .ok marks' ∨
        ((session.role found).isEvent = true → session.heldName found ∈ marks.names) ∧
          marks' = marks.addName (session.heldName found)) := by
  obtain ⟨found, hfound, h⟩ := Except.bind_eq_ok_iff.mp h
  refine ⟨found, entryAt_eq_ok_iff.mp hfound, ?_⟩
  dsimp only at h
  split at h
  · next hwalked =>
    obtain ⟨hnew, hevent⟩ := Bool.and_eq_true_iff.mp hwalked
    rw [Bool.not_eq_true', ← Bool.not_eq_true, NameSet.contains_iff] at hnew
    exact .inl ⟨hevent, hnew, h⟩
  · next hold =>
    cases h
    refine .inr ⟨fun hevent => ?_, rfl⟩
    simpa [hevent] using hold

/-- The tree of a location is walked. -/
theorem markTree_location_cases {sign : Bool} {target : Nat}
    (h : session.markTree walk (.location sign target) marks = .ok marks') :
    ∃ found, session.table.entries[target]? = some found ∧
      walk target (marks.addName (session.heldName found)) = .ok marks' := by
  obtain ⟨found, hfound, h⟩ := Except.bind_eq_ok_iff.mp h
  exact ⟨found, entryAt_eq_ok_iff.mp hfound, h⟩

/-- A call only matters if it asks for gear. -/
theorem markTree_call_cases {sign : Bool} {function : Builtin} {argument : Option Argument}
    (h : session.markTree walk (.call sign function argument) marks = .ok marks') :
    (∃ n, function = .gearPower ∧ argument = some (.number n) ∧
        session.markGear walk n marks = .ok marks') ∨
      function ≠ .gearPower ∧ marks' = marks := by
  unfold markTree at h
  split at h
  · next hgear =>
    split at h
    · next n hn =>
      refine .inl ⟨n, hgear, ?_, h⟩
      obtain ⟨argument, rfl, hargument⟩ := Option.bind_eq_some_iff.mp hn
      cases argument <;> cases hargument
      rfl
    · cases h
  · next hother =>
    cases h
    exact .inr ⟨hother, rfl⟩

/-- A rule that was walked before is not walked again, and the tree of any other rule is marked. -/
theorem walkWithin_cases {depth i : Nat} (h : session.walkWithin depth i marks = .ok marks') :
    i ∈ marks.walked ∧ marks' = marks ∨
      i ∉ marks.walked ∧ ∃ rest entry, depth = rest + 1 ∧ session.table.entries[i]? = some entry ∧
        session.markTree (session.walkWithin rest) entry.tree
          { marks with walked := i :: marks.walked } = .ok marks' := by
  cases depth <;> unfold walkWithin at h <;> split at h
  case zero.isTrue hold =>
    cases h
    exact .inl ⟨List.contains_iff_mem.mp hold, rfl⟩
  case zero.isFalse => cases h
  case succ.isTrue hold =>
    cases h
    exact .inl ⟨List.contains_iff_mem.mp hold, rfl⟩
  case succ.isFalse rest hnew =>
    obtain ⟨entry, hentry, h⟩ := Except.bind_eq_ok_iff.mp h
    rw [List.contains_iff_mem] at hnew
    exact .inr ⟨hnew, rest, entry, rfl, entryAt_eq_ok_iff.mp hentry, h⟩

/-- What a group pulls in, a member does. -/
theorem pulls_group {sign : Bool} {operator : Option Operator} {members : List Tree} {j : Nat} :
    session.Pulls (.group sign operator members) j ↔ ∃ c ∈ members, session.Pulls c j := by
  constructor
  · intro h
    cases h with
    | location h =>
      cases h with
      | member hc h => exact ⟨_, hc, .location h⟩
    | event h hfound hevent =>
      cases h with
      | member hc h => exact ⟨_, hc, .event h hfound hevent⟩
    | gear h hgear hfirst =>
      cases h with
      | member hc h => exact ⟨_, hc, .gear h hgear hfirst⟩
  · rintro ⟨c, hc, h⟩
    cases h with
    | location h => exact .location (.member hc h)
    | event h hfound hevent => exact .event (.member hc h) hfound hevent
    | gear h hgear hfirst => exact .gear (.member hc h) hgear hfirst

/-! ### Nothing else is found -/

/-- What new names and walks keep, marking a tree keeps. -/
theorem markTree_induct {P : Marks → Prop} {tree : Tree}
    (hname : ∀ target ∈ tree.references, ∀ found, session.table.entries[target]? = some found →
      ∀ marks, P marks → P (marks.addName (session.heldName found)))
    (hwalk : ∀ j, session.Pulls tree j → ∀ marks marks', P marks → walk j marks = .ok marks' →
      P marks')
    (hP : P marks) (h : session.markTree walk tree marks = .ok marks') : P marks' := by
  induction tree using Condition.induct generalizing marks marks' with
  | item sign target quantity =>
    have hnamed := hname target List.mem_cons_self
    obtain ⟨found, hfound, ⟨hevent, -, h⟩ | ⟨-, rfl⟩⟩ := markTree_item_cases h
    · exact hwalk target (.event .self hfound hevent) _ _ (hnamed found hfound marks hP) h
    · exact hnamed found hfound marks hP
  | location sign target =>
    obtain ⟨found, hfound, h⟩ := markTree_location_cases h
    exact hwalk target (.location .self) _ _ (hname target List.mem_cons_self found hfound _ hP) h
  | call sign function argument =>
    rcases markTree_call_cases h with ⟨n, rfl, rfl, h⟩ | ⟨-, rfl⟩
    · refine Except.foldlM_induct (motive := fun _ marks => P marks) ?_ hP h
      intro _ gear hgear marks marks' hP h
      obtain ⟨found, hfound, h⟩ := Except.bind_eq_ok_iff.mp h
      cases found with
      | none =>
        cases h
        exact hP
      | some group =>
        exact hwalk group.1 (.gear .self hgear ((firstAdequate?_spec hfound).mp rfl)) _ _ hP h
    · exact hP
  | group sign operator members ih =>
    rw [markTree, markTrees_eq_foldlM] at h
    refine Except.foldlM_induct (motive := fun _ marks => P marks) ?_ hP h
    intro _ c hc marks marks' hP h
    exact ih c hc (fun target htarget => hname target
      (Condition.mem_references_group.mpr ⟨c, hc, htarget⟩))
      (fun j hj => hwalk j (pulls_group.mpr ⟨c, hc, hj⟩)) hP h

/-- What holds of rules that were walked before, and of a rule if marking its tree walks only as it
does, holds of any rule that is walked. -/
theorem walkWithin_induct {P : Nat → Marks → Marks → Prop}
    (hold : ∀ i marks, i ∈ marks.walked → P i marks marks)
    (hnew : ∀ walk i entry marks marks', (∀ j mid mid', walk j mid = .ok mid' → P j mid mid') →
      i ∉ marks.walked → session.table.entries[i]? = some entry →
      session.markTree walk entry.tree { marks with walked := i :: marks.walked } = .ok marks' →
      P i marks marks')
    {depth i : Nat} (h : session.walkWithin depth i marks = .ok marks') : P i marks marks' := by
  induction depth using Nat.strong_induction_on generalizing i marks marks' with
  | _ depth ih =>
    rcases walkWithin_cases h with ⟨hi, rfl⟩ | ⟨hi, rest, entry, rfl, hentry, h⟩
    · exact hold i marks' hi
    · have hwalk : ∀ j mid mid', session.walkWithin rest j mid = .ok mid' → P j mid mid' :=
        fun _ _ _ h => ih rest (Nat.lt_succ_self rest) h
      exact hnew _ i entry marks marks' hwalk hi hentry h

/-- All that was walked is relevant, and every name is progression or was there before. -/
structure Within (session : Session) (names : NameSet) (marks : Marks) : Prop where
  walked : ∀ i ∈ marks.walked, session.Relevant i
  names : ∀ name ∈ marks.names, name ∈ names ∨ session.ProgressionName name

variable {names : NameSet}

theorem Within.addName (h : session.Within names marks) {name : String}
    (hname : session.ProgressionName name) : session.Within names (marks.addName name) := by
  refine ⟨h.walked, fun x hx => ?_⟩
  rcases NameSet.mem_insert.mp hx with rfl | hx
  · exact .inr hname
  · exact h.names x hx

/-- Walking a relevant rule finds only relevant rules and progression. -/
theorem within_walkWithin {depth i : Nat} (hi : session.Relevant i)
    (hmarks : session.Within names marks) (h : session.walkWithin depth i marks = .ok marks') :
    session.Within names marks' := by
  refine walkWithin_induct (P := fun i marks marks' => session.Relevant i →
    session.Within names marks → session.Within names marks') (fun _ _ _ _ hmarks => hmarks)
    (fun walk i entry marks marks' hwalk _ hentry h hi hmarks => ?_) h hi hmarks
  have hstart : session.Within names { marks with walked := i :: marks.walked } :=
    ⟨List.forall_mem_cons.mpr ⟨hi, hmarks.walked⟩, hmarks.names⟩
  refine markTree_induct (fun target htarget found hfound marks hmarks => ?_)
    (fun j hj marks marks' hmarks h => ?_) hstart h
  · exact hmarks.addName (.target hi hentry htarget hfound)
  · exact hwalk j marks marks' h (.pull hi hentry hj) hmarks

/-- What marking an entry in scope starts from: the item name of a root, and then the tree of a
root or a location. -/
theorem markEntry_cases {i : Nat} (h : session.markEntry marks i = .ok marks') :
    ∃ entry start, session.table.entries[i]? = some entry ∧
      start = (if entry.flags.isRoot session.options = true then
        marks.addName entry.defaultItemName else marks) ∧
      ((entry.flags.isRoot session.options = true ∨ (session.role entry).location = true) ∧
          session.walk i start = .ok marks' ∨
        ¬(entry.flags.isRoot session.options = true ∨ (session.role entry).location = true) ∧
          marks' = start) := by
  obtain ⟨entry, hentry, h⟩ := Except.bind_eq_ok_iff.mp h
  refine ⟨entry, _, entryAt_eq_ok_iff.mp hentry, rfl, ?_⟩
  dsimp only at h
  split at h
  · next hseed => exact .inl ⟨by simpa using hseed, h⟩
  · next hseed =>
    cases h
    exact .inr ⟨by simpa using hseed, rfl⟩

/-- Marking adds nothing but progression. -/
theorem within_markInto {marked : NameSet} (h : session.markInto names = .ok marked) :
    ∀ name ∈ marked, name ∈ names ∨ session.ProgressionName name := by
  obtain ⟨marks, hmarks, h⟩ := Except.bind_eq_ok_iff.mp h
  cases h
  have hempty : session.Within names { names } := ⟨nofun, fun name hname => .inl hname⟩
  refine Within.names (Except.foldlM_induct (motive := fun _ marks => session.Within names marks)
    ?_ hempty hmarks)
  intro _ i hi marks marks' hwithin h
  have hscope := List.mem_range.mp hi
  obtain ⟨entry, start, hentry, hstart, h⟩ := markEntry_cases h
  have hstart : session.Within names start := by
    rw [hstart]
    by_cases hroot : entry.flags.isRoot session.options = true
    · rw [if_pos hroot]
      exact hwithin.addName (.root hscope hentry hroot)
    · rwa [if_neg hroot]
  rcases h with ⟨hseed, h⟩ | ⟨-, rfl⟩
  · exact within_walkWithin (.seed hscope hentry hseed) hstart h
  · exact hstart

end Session

end Reachability
