import Reachability.Proofs.Session.Relevance

/-!
# Session — nothing is missed

An item that is already marked is not walked again, so a name that two rules share can hide one of
them.  Where names tell rules apart, every marked event was walked (`Fresh`), each walk completes
the trees that it adds (`Grows.done`), and marking finds all names that are progression.  Items may
refer to each other in cycles: a tree is completed by the time the outermost walk ends, not when
the walk comes back to it.
-/

namespace Reachability

namespace Session

variable {session : Session} {walk : Nat → Marks → Except QueryError Marks} {marks marks' : Marks}
  {names : NameSet}

/-! ### What a walk completes -/

/-- What a tree pulls in was walked, and what it refers to is marked. -/
structure Completed (session : Session) (marks : Marks) (tree : Tree) : Prop where
  pulled : ∀ j, session.Pulls tree j → j ∈ marks.walked
  named : ∀ target ∈ tree.references, ∀ found, session.table.entries[target]? = some found →
    session.heldName found ∈ marks.names

/-- Marking went on: nothing is forgotten, and the trees walked on the way are completed. -/
structure Grows (session : Session) (marks marks' : Marks) : Prop where
  names : ∀ name ∈ marks.names, name ∈ marks'.names
  walked : ∀ i ∈ marks.walked, i ∈ marks'.walked
  done : ∀ i ∈ marks'.walked, i ∉ marks.walked → ∀ entry,
    session.table.entries[i]? = some entry → session.Completed marks' entry.tree

/-- The item name of an entry that is a root is marked, and a root or location was walked. -/
structure Seeded (session : Session) (marks : Marks) (i : Nat) (entry : Entry) : Prop where
  name : entry.flags.isRoot session.options = true → entry.defaultItemName ∈ marks.names
  walked : entry.flags.isRoot session.options = true ∨ (session.role entry).location = true →
    i ∈ marks.walked

/-- Every event whose name is marked was walked, up to one that is about to be. -/
def Fresh (session : Session) (next : Option Nat) (marks : Marks) : Prop :=
  ∀ i entry, session.table.entries[i]? = some entry → (session.role entry).isEvent = true →
    session.heldName entry ∈ marks.names → i ∈ marks.walked ∨ next = some i

/-- With no walk to come, every event whose name is marked was walked. -/
theorem Fresh.mem_walked (h : session.Fresh none marks) {i : Nat} {entry : Entry}
    (hentry : session.table.entries[i]? = some entry)
    (hevent : (session.role entry).isEvent = true) (hname : session.heldName entry ∈ marks.names) :
    i ∈ marks.walked :=
  (h i entry hentry hevent hname).resolve_right nofun

theorem Fresh.of_none (h : session.Fresh none marks) (next : Option Nat) :
    session.Fresh next marks :=
  fun _ _ hentry hevent hname => .inl (h.mem_walked hentry hevent hname)

theorem Completed.mono {tree : Tree} (h : session.Completed marks tree)
    (hgrows : session.Grows marks marks') : session.Completed marks' tree :=
  ⟨fun j hj => hgrows.walked j (h.pulled j hj),
    fun target htarget found hfound => hgrows.names _ (h.named target htarget found hfound)⟩

theorem Seeded.mono {i : Nat} {entry : Entry} (h : session.Seeded marks i entry)
    (hgrows : session.Grows marks marks') : session.Seeded marks' i entry :=
  ⟨fun hroot => hgrows.names _ (h.name hroot), fun hseed => hgrows.walked i (h.walked hseed)⟩

theorem Grows.refl (session : Session) (marks : Marks) : session.Grows marks marks :=
  ⟨fun _ h => h, fun _ h => h, fun _ h hnot => absurd h hnot⟩

theorem Grows.trans {marks'' : Marks} (h : session.Grows marks marks')
    (h' : session.Grows marks' marks'') : session.Grows marks marks'' := by
  refine ⟨fun name hname => h'.names name (h.names name hname),
    fun i hi => h'.walked i (h.walked i hi), fun i hi hnot entry hentry => ?_⟩
  by_cases hmid : i ∈ marks'.walked
  · exact (h.done i hmid hnot entry hentry).mono h'
  · exact h'.done i hi hmid entry hentry

theorem grows_addName (name : String) : session.Grows marks (marks.addName name) :=
  ⟨fun _ h => NameSet.mem_insert.mpr (.inr h), fun _ h => h, fun _ h hnot => absurd h hnot⟩

section
variable {sign : Bool} {target : Nat} {found : Entry}
  (hfound : session.table.entries[target]? = some found)
include hfound

theorem completed_item {quantity : UInt64} (hname : session.heldName found ∈ marks.names)
    (hevent : (session.role found).isEvent = true → target ∈ marks.walked) :
    session.Completed marks (.item sign target quantity) := by
  refine ⟨fun j hj => ?_, fun t ht other hother => ?_⟩
  · cases hj with
    | location h => cases h
    | event h hother hisEvent =>
      cases h
      obtain rfl := Option.some.inj (hfound.symm.trans hother)
      exact hevent hisEvent
    | gear h => cases h
  · obtain rfl := List.mem_singleton.mp ht
    obtain rfl := Option.some.inj (hfound.symm.trans hother)
    exact hname

theorem completed_location (hname : session.heldName found ∈ marks.names)
    (hwalked : target ∈ marks.walked) : session.Completed marks (.location sign target) := by
  refine ⟨fun j hj => ?_, fun t ht other hother => ?_⟩
  · cases hj with
    | location h =>
      cases h
      exact hwalked
    | event h => cases h
    | gear h => cases h
  · obtain rfl := List.mem_singleton.mp ht
    obtain rfl := Option.some.inj (hfound.symm.trans hother)
    exact hname

end

theorem completed_call {sign : Bool} {function : Builtin} {argument : Option Argument}
    (hgear : ∀ n, function = .gearPower → argument = some (.number n) →
      ∀ gear ∈ session.table.capabilities.gearTables, ∀ group,
        session.FirstSuiting n gear group → group.1 ∈ marks.walked) :
    session.Completed marks (.call sign function argument) := by
  refine ⟨fun j hj => ?_, nofun⟩
  cases hj with
  | location h => cases h
  | event h => cases h
  | gear h hmem hfirst =>
    cases h
    exact hgear _ rfl rfl _ hmem _ hfirst

theorem completed_group {sign : Bool} {operator : Option Operator} {members : List Tree}
    (h : ∀ c ∈ members, session.Completed marks c) :
    session.Completed marks (.group sign operator members) := by
  refine ⟨fun j hj => ?_, fun target htarget => ?_⟩
  · obtain ⟨c, hc, hj⟩ := pulls_group.mp hj
    exact (h c hc).pulled j hj
  · obtain ⟨c, hc, htarget⟩ := Condition.mem_references_group.mp htarget
    exact (h c hc).named target htarget

/-- Walking a rule that may be the only marked event not walked yet grows the marks and leaves no
such event. -/
def WalkGrows (session : Session) (walk : Nat → Marks → Except QueryError Marks) : Prop :=
  ∀ j marks marks', session.Fresh (some j) marks → walk j marks = .ok marks' →
    session.Grows marks marks' ∧ j ∈ marks'.walked ∧ session.Fresh none marks'

/-- Walking the first suiting group of each table of gear completes the call that asks for it. -/
theorem grows_markGear (hwalk : session.WalkGrows walk) {n : UInt64}
    (hfresh : session.Fresh none marks) (h : session.markGear walk n marks = .ok marks') :
    session.Grows marks marks' ∧ session.Fresh none marks' ∧
      ∀ gear ∈ session.table.capabilities.gearTables, ∀ group,
        session.FirstSuiting n gear group → group.1 ∈ marks'.walked := by
  refine Except.foldlM_induct (motive := fun before mid =>
    session.Grows marks mid ∧ session.Fresh none mid ∧
      ∀ gear ∈ before, ∀ group, session.FirstSuiting n gear group → group.1 ∈ mid.walked)
    ?_ ⟨.refl _ _, hfresh, nofun⟩ h
  rintro before gear - mid mid' ⟨hgrows, hfresh, hbefore⟩ h
  obtain ⟨found, hfound, h⟩ := Except.bind_eq_ok_iff.mp h
  -- the step grows the marks and walks the group that it finds
  obtain ⟨hstep, hfresh', hwalked⟩ : session.Grows mid mid' ∧ session.Fresh none mid' ∧
      ∀ group, found = some group → group.1 ∈ mid'.walked := by
    cases found with
    | none =>
      cases h
      exact ⟨.refl _ _, hfresh, nofun⟩
    | some group =>
      obtain ⟨hstep, hmem, hfresh'⟩ := hwalk group.1 mid mid' (hfresh.of_none _) h
      refine ⟨hstep, hfresh', fun g hg => ?_⟩
      obtain rfl := Option.some.inj hg
      exact hmem
  refine ⟨hgrows.trans hstep, hfresh', fun gear' hgear' group hfirst => ?_⟩
  rcases List.mem_append.mp hgear' with hgear' | hgear'
  · exact hstep.walked _ (hbefore gear' hgear' group hfirst)
  · obtain rfl := List.mem_singleton.mp hgear'
    exact hwalked group ((firstAdequate?_spec hfound).mpr hfirst)

section
variable (hdiffer : session.NamesDiffer)
include hdiffer

/-- What rules are held under tells them apart. -/
theorem eq_of_heldName_eq {i j : Nat} {entry found : Entry}
    (hi : session.table.entries[i]? = some entry) (hj : session.table.entries[j]? = some found)
    (h : session.heldName entry = session.heldName found) : i = j := by
  have hlt : i < (session.table.entries.map session.heldName).length := by
    rw [List.length_map]
    exact (List.getElem?_eq_some_iff.mp hi).1
  refine (List.getElem?_inj hlt hdiffer).mp ?_
  rw [List.getElem?_map, List.getElem?_map, hi, hj, Option.map_some, Option.map_some, h]

/-- With the name of a rule only that rule can become a marked event that was not walked. -/
theorem Fresh.addName (h : session.Fresh none marks) {target : Nat} {found : Entry}
    (hfound : session.table.entries[target]? = some found) :
    session.Fresh (some target) (marks.addName (session.heldName found)) := by
  intro i entry hentry hevent hname
  rcases NameSet.mem_insert.mp hname with hname | hname
  · exact .inr (congrArg some (eq_of_heldName_eq hdiffer hfound hentry hname.symm))
  · exact .inl (h.mem_walked hentry hevent hname)

/-- Marking a tree completes it. -/
theorem grows_markTree (hwalk : session.WalkGrows walk) {tree : Tree}
    (hfresh : session.Fresh none marks) (h : session.markTree walk tree marks = .ok marks') :
    session.Grows marks marks' ∧ session.Fresh none marks' ∧ session.Completed marks' tree := by
  induction tree using Condition.induct generalizing marks marks' with
  | item sign target quantity =>
    obtain ⟨found, hfound, h⟩ := markTree_item_cases h
    have hnext := hfresh.addName hdiffer hfound
    have hadd : session.Grows marks (marks.addName (session.heldName found)) := grows_addName _
    have hmem : session.heldName found ∈ (marks.addName (session.heldName found)).names :=
      NameSet.mem_insert.mpr (.inl rfl)
    rcases h with ⟨-, -, h⟩ | ⟨hold, rfl⟩
    · obtain ⟨hgrows, hwalked, hfresh'⟩ := hwalk _ _ _ hnext h
      exact ⟨hadd.trans hgrows, hfresh',
        completed_item hfound (hgrows.names _ hmem) fun _ => hwalked⟩
    · -- an event whose name is not new was walked when its name was
      have hwalked : (session.role found).isEvent = true → target ∈ marks.walked :=
        fun hevent => hfresh.mem_walked hfound hevent (hold hevent)
      refine ⟨hadd, fun i entry hentry hevent hname => ?_, completed_item hfound hmem hwalked⟩
      rcases hnext i entry hentry hevent hname with hi | hi
      · exact .inl hi
      · obtain rfl := Option.some.inj hi
        obtain rfl := Option.some.inj (hfound.symm.trans hentry)
        exact .inl (hwalked hevent)
  | location sign target =>
    obtain ⟨found, hfound, h⟩ := markTree_location_cases h
    obtain ⟨hgrows, hwalked, hfresh'⟩ := hwalk _ _ _ (hfresh.addName hdiffer hfound) h
    exact ⟨(grows_addName _).trans hgrows, hfresh',
      completed_location hfound (hgrows.names _ (NameSet.mem_insert.mpr (.inl rfl))) hwalked⟩
  | call sign function argument =>
    rcases markTree_call_cases h with ⟨n, rfl, rfl, h⟩ | ⟨hother, rfl⟩
    · obtain ⟨hgrows, hfresh', hgear⟩ := grows_markGear hwalk hfresh h
      refine ⟨hgrows, hfresh', completed_call fun m _ hm => ?_⟩
      cases hm
      exact hgear
    · exact ⟨.refl _ _, hfresh, completed_call fun _ hgear => absurd hgear hother⟩
  | group sign operator members ih =>
    rw [markTree, markTrees_eq_foldlM] at h
    have hmembers : session.Grows marks marks' ∧ session.Fresh none marks' ∧
        ∀ c ∈ members, session.Completed marks' c := by
      refine Except.foldlM_induct (motive := fun before mid =>
        session.Grows marks mid ∧ session.Fresh none mid ∧ ∀ c ∈ before, session.Completed mid c)
        ?_ ⟨.refl _ _, hfresh, List.forall_mem_nil _⟩ h
      rintro before c hc mid mid' ⟨hgrows, hfresh, hbefore⟩ h
      obtain ⟨hstep, hfresh', hcompleted⟩ := ih c hc hfresh h
      refine ⟨hgrows.trans hstep, hfresh', fun d hd => ?_⟩
      rcases List.mem_append.mp hd with hd | hd
      · exact (hbefore d hd).mono hstep
      · obtain rfl := List.mem_singleton.mp hd
        exact hcompleted
    obtain ⟨hgrows, hfresh', hmembers⟩ := hmembers
    exact ⟨hgrows, hfresh', completed_group hmembers⟩

/-- Walking a rule completes its tree. -/
theorem walkGrows_walkWithin (depth : Nat) : session.WalkGrows (session.walkWithin depth) := by
  intro j marks marks' hfresh h
  refine walkWithin_induct (P := fun j marks marks' => session.Fresh (some j) marks →
    session.Grows marks marks' ∧ j ∈ marks'.walked ∧ session.Fresh none marks')
    (fun j marks hj hfresh => ?_) (fun walk j entry marks marks' hwalk _ hentry h hfresh => ?_)
    h hfresh
  · refine ⟨.refl _ _, hj, fun i entry hentry hevent hname => .inl ?_⟩
    rcases hfresh i entry hentry hevent hname with hi | hi
    · exact hi
    · rwa [← Option.some.inj hi]
  · have hstart : session.Fresh none { marks with walked := j :: marks.walked } := by
      intro i entry hentry hevent hname
      rcases hfresh i entry hentry hevent hname with hi | hi
      · exact .inl (List.mem_cons_of_mem j hi)
      · obtain rfl := Option.some.inj hi
        exact .inl List.mem_cons_self
    obtain ⟨hgrows, hfresh', hcompleted⟩ := grows_markTree hdiffer
      (fun j mid mid' hmid h => hwalk j mid mid' h hmid) hstart h
    refine ⟨⟨hgrows.names, fun i hi => hgrows.walked i (List.mem_cons_of_mem j hi),
      fun i hi hnot other hother => ?_⟩, hgrows.walked j List.mem_cons_self, hfresh'⟩
    by_cases hij : i = j
    · subst hij
      obtain rfl := Option.some.inj (hentry.symm.trans hother)
      exact hcompleted
    · refine hgrows.done i hi (fun hmem => ?_) other hother
      rcases List.mem_cons.mp hmem with h | h
      · exact hij h
      · exact hnot h

/-- Marking an entry in scope marks the item name of a root and walks roots and locations. -/
theorem grows_markEntry (hroots : session.RootsApart) {i : Nat} (hi : i < session.scope)
    (hfresh : session.Fresh none marks) (h : session.markEntry marks i = .ok marks') :
    session.Grows marks marks' ∧ session.Fresh none marks' ∧
      ∀ entry, session.table.entries[i]? = some entry → session.Seeded marks' i entry := by
  obtain ⟨entry, start, hentry, hstart, hcases⟩ := markEntry_cases h
  clear h
  by_cases hroot : entry.flags.isRoot session.options = true
  · rw [if_pos hroot] at hstart
    subst hstart
    have hnext : session.Fresh (some i) (marks.addName entry.defaultItemName) := by
      intro j found hfound hevent hname
      rcases NameSet.mem_insert.mp hname with hname | hname
      · exact .inr (congrArg some (hroots i hi entry hentry hroot j found hfound hname).symm)
      · exact .inl (hfresh.mem_walked hfound hevent hname)
    rcases hcases with ⟨-, h⟩ | ⟨hnot, -⟩
    · obtain ⟨hgrows, hwalked, hfresh'⟩ := walkGrows_walkWithin hdiffer _ _ _ _ hnext h
      refine ⟨(grows_addName _).trans hgrows, hfresh', fun other hother => ?_⟩
      obtain rfl := Option.some.inj (hentry.symm.trans hother)
      exact ⟨fun _ => hgrows.names _ (NameSet.mem_insert.mpr (.inl rfl)), fun _ => hwalked⟩
    · exact absurd (.inl hroot) hnot
  · rw [if_neg hroot] at hstart
    subst hstart
    rcases hcases with ⟨-, h⟩ | ⟨hnot, rfl⟩
    · obtain ⟨hgrows, hwalked, hfresh'⟩ :=
        walkGrows_walkWithin hdiffer _ _ _ _ (hfresh.of_none (some i)) h
      refine ⟨hgrows, hfresh', fun other hother => ?_⟩
      obtain rfl := Option.some.inj (hentry.symm.trans hother)
      exact ⟨fun h => absurd h hroot, fun _ => hwalked⟩
    · refine ⟨.refl _ _, hfresh, fun other hother => ?_⟩
      obtain rfl := Option.some.inj (hentry.symm.trans hother)
      exact ⟨fun h => absurd h hroot, fun h => absurd h hnot⟩

/-- Marking adds all progression names to names among which is none of an event. -/
theorem mem_markInto (hroots : session.RootsApart) (hfresh : session.Fresh none { names })
    {marked : NameSet} (h : session.markInto names = .ok marked) :
    (∀ name ∈ names, name ∈ marked) ∧ ∀ name, session.ProgressionName name → name ∈ marked := by
  obtain ⟨marks, hmarks, h⟩ := Except.bind_eq_ok_iff.mp h
  cases h
  have hloop : session.Grows { names } marks ∧ session.Fresh none marks ∧
      ∀ i ∈ List.range session.scope, ∀ entry, session.table.entries[i]? = some entry →
        session.Seeded marks i entry := by
    refine Except.foldlM_induct (motive := fun before marks =>
      session.Grows { names } marks ∧ session.Fresh none marks ∧
        ∀ i ∈ before, ∀ entry, session.table.entries[i]? = some entry →
          session.Seeded marks i entry) ?_ ⟨.refl _ _, hfresh, nofun⟩ hmarks
    rintro before i hi mid mid' ⟨hgrows, hfresh, hbefore⟩ h
    obtain ⟨hstep, hfresh', hseed⟩ :=
      grows_markEntry hdiffer hroots (List.mem_range.mp hi) hfresh h
    refine ⟨hgrows.trans hstep, hfresh', fun j hj entry hentry => ?_⟩
    rcases List.mem_append.mp hj with hj | hj
    · exact (hbefore j hj entry hentry).mono hstep
    · obtain rfl := List.mem_singleton.mp hj
      exact hseed entry hentry
  obtain ⟨hgrows, -, hseeds⟩ := hloop
  have hcompleted : ∀ i ∈ marks.walked, ∀ entry, session.table.entries[i]? = some entry →
      session.Completed marks entry.tree := fun i hi => hgrows.done i hi List.not_mem_nil
  have hrelevant : ∀ i, session.Relevant i → i ∈ marks.walked := by
    intro i hi
    induction hi with
    | seed hscope hentry hseed => exact (hseeds _ (List.mem_range.mpr hscope) _ hentry).walked hseed
    | pull _ hentry hpulls ih => exact (hcompleted _ ih _ hentry).pulled _ hpulls
  refine ⟨hgrows.names, fun name hname => ?_⟩
  cases hname with
  | root hscope hentry hroot => exact (hseeds _ (List.mem_range.mpr hscope) _ hentry).name hroot
  | target hi hentry htarget hfound =>
    exact (hcompleted _ (hrelevant _ hi) _ hentry).named _ htarget _ hfound

end

/-- Marking succeeds and finds nothing but progression: the item names of the roots in scope, and
what the trees of relevant rules refer to.  It finds all of it if rules are not held under the
same name and no root has an item name that is another rule's.  Items may refer to each other in
cycles. -/
theorem progression_spec {table : Table} (htable : table.Made) {options : Options}
    {session : Session} (hsession : table.session options = .ok session) :
    ∃ marked, session.progression = .ok marked ∧
      (∀ name ∈ marked, session.ProgressionName name) ∧
      (session.NamesDiffer → session.RootsApart →
        ∀ name, name ∈ marked ↔ session.ProgressionName name) := by
  obtain rfl := table_of_session hsession
  have hsound := htable.sound
  obtain ⟨marked, hmarked⟩ := markInto_eq_ok hsound (hsound.scope_le hsession) ∅
  have hwithin : ∀ name ∈ marked, session.ProgressionName name := fun name hname =>
    (within_markInto hmarked name hname).resolve_left (NameSet.not_mem_empty name)
  have hfresh : session.Fresh none { names := ∅ } := fun _ _ _ _ hname =>
    absurd hname (NameSet.not_mem_empty _)
  exact ⟨marked, hmarked, hwithin, fun hdiffer hroots name =>
    ⟨hwithin name, (mem_markInto hdiffer hroots hfresh hmarked).2 name⟩⟩

/-- The moss grows where there are spores, and spores come from moss. -/
def mossTable : Table where
  entries := [
    { name := "Grotto", flags := .ofList [(.location, none)],
      tree := .group true none [.item true 1 1], itemName := none, line := 1, copy := none },
    { name := "Moss", flags := ∅, tree := .group true none [.item true 2 1], itemName := none,
      line := 2, copy := none },
    { name := "Spore", flags := ∅, tree := .group true none [.item true 1 3], itemName := none,
      line := 3, copy := none },
    { name := "Copper Pickaxe", flags := .ofList [(.item, none), (.pickaxe, some (.number 35))],
      tree := .group true none [], itemName := some "Copper Pickaxe", line := 4, copy := none }]
  goals := []
  labels := []
  rewards := []
  capabilities := { pickaxes := [(3, 35)] }

theorem made_mossTable : mossTable.Made := by
  refine .inl ⟨{ rules := [
    { name := "Grotto", flags := .ofList [(.location, none)], conditions := [.item true "Moss" 1],
      line := 1 },
    { name := "Moss", conditions := [.item true "Spore" 1], line := 2 },
    { name := "Spore", conditions := [.item true "Moss" 3], line := 3 },
    { name := "Copper Pickaxe", flags := .ofList [(.item, none), (.pickaxe, some (.number 35))],
      line := 4 }] }, {}, rfl⟩

/-- Moss and spores are found although each refers to the other, and so is the pickaxe, which is a
root. -/
theorem progression_spec_mossTable : ∃ session marked, mossTable.session {} = .ok session ∧
    session.progression = .ok marked ∧ "Spore" ∈ marked ∧ "Moss" ∈ marked ∧
      "Copper Pickaxe" ∈ marked := by
  let session : Session := ⟨mossTable, {}, none⟩
  have hsession : mossTable.session {} = .ok session := rfl
  obtain ⟨marked, hmarked, -, hiff⟩ := progression_spec made_mossTable hsession
  have hdiffer : session.NamesDiffer := by
    unfold NamesDiffer
    decide
  have hroots : session.RootsApart := by
    intro i hi root hroot hflag j found hfound hname
    -- the only root is an item, and held under its item name
    have hheld : session.heldName root = root.defaultItemName := by
      match i, hi, hroot with
      | 0, _, rfl | 1, _, rfl | 2, _, rfl => exact absurd hflag (by decide)
      | 3, _, rfl => rfl
    exact eq_of_heldName_eq hdiffer hfound hroot (hname.trans hheld.symm)
  have hiff := hiff hdiffer hroots
  have hgrotto : session.Relevant 0 := .seed (by decide) rfl (.inr rfl)
  have hmoss : session.Relevant 1 :=
    .pull hgrotto rfl (.event (.member List.mem_cons_self .self) rfl rfl)
  refine ⟨session, marked, hsession, hmarked, (hiff _).mpr ?_, (hiff _).mpr ?_, (hiff _).mpr ?_⟩
  · exact .target hmoss rfl (List.mem_cons_self) rfl
  · exact .target hgrotto rfl (List.mem_cons_self) rfl
  · have hpickaxe : 3 < session.scope := by decide
    exact .root hpickaxe rfl rfl

end Session

end Reachability
