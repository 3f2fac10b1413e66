import Reachability.Proofs.Session.Footprint
import Reachability.Proofs.Session.Progression

/-!
# Session — what marking always finds

A name that was there before, or that two rules share, can keep marking from the tree of an event.
It never keeps marking from the tree of a location.

* `Entered`: the rules that marking walks whatever names it starts from, which are the locations and
  roots in scope and what their trees enter through location references.
* `Assured`: the item names of the roots, and all that the trees of entered rules refer to.  Marking
  finds these names whatever it starts from (`mem_markInto_of_assured`).

Without calls that count items or look for gear, evaluating an entered rule asks for assured names
only, so no other name has an influence on it (`canReach_congr_of_marked`).
-/

namespace Reachability

namespace Session

variable {session : Session} {walk : Nat → Marks → Except QueryError Marks} {marks marks' : Marks}
  {names : NameSet}

/-- Marking walks a rule whatever names it starts from: a root or a location in scope, or a location
that the tree of such a rule refers to. -/
inductive Entered (session : Session) : Nat → Prop
  | seed {i : Nat} {entry : Entry} :
      i < session.scope → session.table.entries[i]? = some entry →
      (entry.flags.isRoot session.options = true ∨ (session.role entry).location = true) →
      Entered session i
  | location {i j : Nat} {entry : Entry} {sign : Bool} :
      Entered session i → session.table.entries[i]? = some entry →
      Condition.Inside (.location sign j) entry.tree → Entered session j

/-- A name that marking finds whatever names it starts from: the item name of a root in scope, or
what a rule is held under that the tree of an entered rule refers to. -/
inductive Assured (session : Session) : String → Prop
  | root {i : Nat} {entry : Entry} :
      i < session.scope → session.table.entries[i]? = some entry →
      entry.flags.isRoot session.options = true → Assured session entry.defaultItemName
  | target {i target : Nat} {entry found : Entry} :
      session.Entered i → session.table.entries[i]? = some entry →
      target ∈ entry.tree.references → session.table.entries[target]? = some found →
      Assured session (session.heldName found)

/-! ### Trees that are covered -/

/-- What a tree refers to is marked, and the locations in it were walked. -/
structure Covered (session : Session) (marks : Marks) (tree : Tree) : Prop where
  named : ∀ target ∈ tree.references, ∀ found, session.table.entries[target]? = some found →
    session.heldName found ∈ marks.names
  located : ∀ sign target, Condition.Inside (.location sign target) tree → target ∈ marks.walked

/-- Marking went on: nothing is forgotten, and the trees walked on the way are covered. -/
structure Adds (session : Session) (marks marks' : Marks) : Prop where
  names : ∀ name ∈ marks.names, name ∈ marks'.names
  walked : ∀ i ∈ marks.walked, i ∈ marks'.walked
  covered : ∀ i ∈ marks'.walked, i ∉ marks.walked → ∀ entry,
    session.table.entries[i]? = some entry → session.Covered marks' entry.tree

theorem Covered.mono {tree : Tree} (h : session.Covered marks tree)
    (hadds : session.Adds marks marks') : session.Covered marks' tree :=
  ⟨fun target htarget found hfound => hadds.names _ (h.named target htarget found hfound),
    fun sign target hin => hadds.walked target (h.located sign target hin)⟩

theorem Adds.refl (session : Session) (marks : Marks) : session.Adds marks marks :=
  ⟨fun _ h => h, fun _ h => h, fun _ h hnot => absurd h hnot⟩

theorem Adds.trans {marks'' : Marks} (h : session.Adds marks marks')
    (h' : session.Adds marks' marks'') : session.Adds marks marks'' := by
  refine ⟨fun name hname => h'.names name (h.names name hname),
    fun i hi => h'.walked i (h.walked i hi), fun i hi hnot entry hentry => ?_⟩
  by_cases hmid : i ∈ marks'.walked
  · exact (h.covered i hmid hnot entry hentry).mono h'
  · exact h'.covered i hi hmid entry hentry

theorem adds_addName (name : String) : session.Adds marks (marks.addName name) :=
  ⟨fun _ h => NameSet.mem_insert.mpr (.inr h), fun _ h => h, fun _ h hnot => absurd h hnot⟩

/-- Walking any rule adds to the marks, and then the rule was walked. -/
def WalkAdds (session : Session) (walk : Nat → Marks → Except QueryError Marks) : Prop :=
  ∀ j marks marks', walk j marks = .ok marks' → session.Adds marks marks' ∧ j ∈ marks'.walked

section
variable (hwalk : session.WalkAdds walk)
include hwalk

theorem adds_markTree {tree : Tree} (h : session.markTree walk tree marks = .ok marks') :
    session.Adds marks marks' := by
  refine markTree_induct (P := session.Adds marks) (fun _ _ _ _ mid hmid => ?_)
    (fun j _ mid mid' hmid h => ?_) (.refl session marks) h
  · exact hmid.trans (adds_addName _)
  · exact hmid.trans (hwalk j mid mid' h).1

/-- Marking a tree covers it. -/
theorem covered_markTree {tree : Tree} (h : session.markTree walk tree marks = .ok marks') :
    session.Covered marks' tree := by
  induction tree using Condition.induct generalizing marks marks' with
  | item sign target quantity =>
    obtain ⟨found, hfound, hcases⟩ := markTree_item_cases h
    have hmem : session.heldName found ∈ (marks.addName (session.heldName found)).names :=
      NameSet.mem_insert.mpr (.inl rfl)
    have hname : session.heldName found ∈ marks'.names := by
      rcases hcases with ⟨-, -, h⟩ | ⟨-, rfl⟩
      · exact (hwalk _ _ _ h).1.names _ hmem
      · exact hmem
    refine ⟨fun t ht other hother => ?_, nofun⟩
    obtain rfl := List.mem_singleton.mp ht
    obtain rfl := Option.some.inj (hfound.symm.trans hother)
    exact hname
  | location sign target =>
    obtain ⟨found, hfound, h⟩ := markTree_location_cases h
    obtain ⟨hadds, hwalked⟩ := hwalk _ _ _ h
    constructor
    case named =>
      intro t ht other hother
      obtain rfl := List.mem_singleton.mp ht
      obtain rfl := Option.some.inj (hfound.symm.trans hother)
      exact hadds.names _ (NameSet.mem_insert.mpr (.inl rfl))
    case located =>
      rintro _ _ ⟨⟩
      exact hwalked
  | call sign function argument => exact ⟨nofun, nofun⟩
  | group sign operator members ih =>
    rw [markTree, markTrees_eq_foldlM] at h
    have hmembers : ∀ c ∈ members, session.Covered marks' c := by
      refine Except.foldlM_induct (motive := fun before mid =>
        ∀ c ∈ before, session.Covered mid c) ?_ (List.forall_mem_nil _) h
      intro before c hc mid mid' hbefore h d hd
      rcases List.mem_append.mp hd with hd | hd
      · exact (hbefore d hd).mono (adds_markTree hwalk h)
      · obtain rfl := List.mem_singleton.mp hd
        exact ih d hc h
    refine ⟨fun target htarget => ?_, fun s target hin => ?_⟩
    · obtain ⟨c, hc, htarget⟩ := Condition.mem_references_group.mp htarget
      exact (hmembers c hc).named target htarget
    · rcases Condition.inside_group.mp hin with h | ⟨c, hc, hin⟩
      · cases h
      · exact (hmembers c hc).located s target hin

end

theorem walkAdds_walkWithin (depth : Nat) : session.WalkAdds (session.walkWithin depth) := by
  intro j marks marks' h
  refine walkWithin_induct
    (P := fun j marks marks' => session.Adds marks marks' ∧ j ∈ marks'.walked)
    (fun j marks hj => ⟨.refl session marks, hj⟩)
    (fun walk j entry marks marks' hwalk _ hentry h => ?_) h
  have hadds := adds_markTree hwalk h
  refine ⟨⟨hadds.names, fun i hi => hadds.walked i (List.mem_cons_of_mem j hi),
    fun i hi hnot other hother => ?_⟩, hadds.walked j List.mem_cons_self⟩
  by_cases hij : i = j
  · -- the tree of the rule itself is covered once all of it was marked
    subst hij
    obtain rfl := Option.some.inj (hentry.symm.trans hother)
    exact covered_markTree hwalk h
  · refine hadds.covered i hi (fun hmem => ?_) other hother
    rcases List.mem_cons.mp hmem with h | h
    · exact hij h
    · exact hnot h

/-! ### All rules in scope -/

/-- Marking an entry in scope adds to the marks: the item name of a root, and the tree of a root or
a location. -/
theorem adds_markEntry {i : Nat} (h : session.markEntry marks i = .ok marks') :
    session.Adds marks marks' ∧
      ∀ entry, session.table.entries[i]? = some entry → session.Seeded marks' i entry := by
  obtain ⟨entry, start, hentry, hstart, hcases⟩ := markEntry_cases h
  have hadds : session.Adds marks start := by
    rw [hstart]
    split
    · exact adds_addName _
    · exact .refl _ _
  have hname : entry.flags.isRoot session.options = true →
      entry.defaultItemName ∈ start.names := by
    intro hroot
    rw [hstart, if_pos hroot]
    exact NameSet.mem_insert.mpr (.inl rfl)
  have hentries : ∀ {other}, session.table.entries[i]? = some other → other = entry :=
    fun hother => Option.some.inj (hother.symm.trans hentry)
  rcases hcases with ⟨-, h⟩ | ⟨hnot, rfl⟩
  · obtain ⟨hwalk, hwalked⟩ := walkAdds_walkWithin _ _ _ _ h
    refine ⟨hadds.trans hwalk, fun other hother => ?_⟩
    obtain rfl := hentries hother
    exact ⟨fun hroot => hwalk.names _ (hname hroot), fun _ => hwalked⟩
  · refine ⟨hadds, fun other hother => ?_⟩
    obtain rfl := hentries hother
    exact ⟨hname, fun hseed => absurd hseed hnot⟩

/-- Marking keeps the names that it starts from and covers every tree that it walks, among them
those of the locations and roots in scope. -/
theorem covered_markInto {marked : NameSet} (h : session.markInto names = .ok marked) :
    ∃ marks : Marks, marks.names = marked ∧ (∀ name ∈ names, name ∈ marks.names) ∧
      (∀ i ∈ marks.walked, ∀ entry, session.table.entries[i]? = some entry →
        session.Covered marks entry.tree) ∧
      ∀ i < session.scope, ∀ entry, session.table.entries[i]? = some entry →
        session.Seeded marks i entry := by
  obtain ⟨marks, hmarks, h⟩ := Except.bind_eq_ok_iff.mp h
  cases h
  obtain ⟨hadds, hseeds⟩ : session.Adds { names } marks ∧ ∀ i ∈ List.range session.scope,
      ∀ entry, session.table.entries[i]? = some entry → session.Seeded marks i entry := by
    refine Except.foldlM_induct (motive := fun before mid => session.Adds { names } mid ∧
      ∀ i ∈ before, ∀ entry, session.table.entries[i]? = some entry →
        session.Seeded mid i entry) ?_ ⟨.refl _ _, nofun⟩ hmarks
    rintro before i - mid mid' ⟨hadds, hbefore⟩ h
    obtain ⟨hstep, hseed⟩ := adds_markEntry h
    refine ⟨hadds.trans hstep, fun j hj entry hentry => ?_⟩
    rcases List.mem_append.mp hj with hj | hj
    · obtain ⟨hname, hwalked⟩ := hbefore j hj entry hentry
      exact ⟨fun hroot => hstep.names _ (hname hroot), fun h => hstep.walked j (hwalked h)⟩
    · obtain rfl := List.mem_singleton.mp hj
      exact hseed entry hentry
  exact ⟨marks, rfl, hadds.names, fun i hi => hadds.covered i hi List.not_mem_nil,
    fun i hi => hseeds i (List.mem_range.mpr hi)⟩

/-- Marking keeps the names that it starts from. -/
theorem mem_markInto_of_mem {marked : NameSet} (h : session.markInto names = .ok marked)
    {name : String} (hname : name ∈ names) : name ∈ marked := by
  obtain ⟨marks, rfl, hkeeps, -⟩ := covered_markInto h
  exact hkeeps name hname

/-- Marking finds every assured name. -/
theorem mem_markInto_of_assured {marked : NameSet} (h : session.markInto names = .ok marked)
    {name : String} (hname : session.Assured name) : name ∈ marked := by
  obtain ⟨marks, rfl, -, hcovered, hseeds⟩ := covered_markInto h
  have hentered : ∀ i, session.Entered i → i ∈ marks.walked := by
    intro i hi
    induction hi with
    | seed hscope hentry hseed => exact (hseeds _ hscope _ hentry).walked hseed
    | location _ hentry hin ih => exact (hcovered _ ih _ hentry).located _ _ hin
  cases hname with
  | root hscope hentry hroot => exact (hseeds _ hscope _ hentry).name hroot
  | target hi hentry htarget hfound =>
    exact (hcovered _ (hentered _ hi) _ hentry).named _ htarget _ hfound

/-! ### Evaluating entered rules -/

/-- Where no call looks for gear, what an entered rule may enter is entered. -/
theorem entered_of_mayEnter {start : Nat} (hstart : session.Entered start)
    (hgear : ∀ i entry, session.table.MayEnter start i → session.table.entries[i]? = some entry →
      ∀ sign argument, ¬Condition.Inside (.call sign .gearPower argument) entry.tree)
    {i : Nat} (hmay : session.table.MayEnter start i) : session.Entered i := by
  induction hmay with
  | start => exact hstart
  | descend hmay hk ih =>
    unfold descentsOf at hk
    split at hk
    · cases hk
    · next entry hentry =>
      rcases Condition.mem_descents_iff.mp hk with ⟨sign, hin⟩ | ⟨⟨sign, argument, hin⟩, -⟩
      · exact .location ih hentry hin
      · exact absurd hin (hgear _ entry hmay hentry sign argument)

/-- Where no call counts items, all that the tree of an entered rule asks for is assured. -/
theorem Asks.assured {i : Nat} {entry : Entry} (hi : session.Entered i)
    (hentry : session.table.entries[i]? = some entry)
    (htoggles : ∀ sign function argument,
      Condition.Inside (.call sign function argument) entry.tree → function.takesNumber = false)
    {name : String} {quantity : UInt64} (h : session.Asks entry.tree name quantity) :
    session.Assured name := by
  cases h with
  | item hin hfound => exact .target hi hentry (Condition.mem_references_of_item hin) hfound
  | call hin hindex _ =>
    rw [Capabilities.counted_of_not_takesNumber (htoggles _ _ _ hin)] at hindex
    cases hindex

/-- Names that are not marked have no influence on a location or root in scope if no tree that
evaluating it may enter counts items or looks for gear, so that all its calls echo an option.
Marking may start from any names.  Two states that agree on all marked names then reach the rule
alike. -/
theorem canReach_congr_of_marked {table : Table} (htable : table.IsRead) {options : Options}
    {session : Session} (hsession : table.session options = .ok session) (names : NameSet)
    {i : Nat} {entry : Entry} (hscope : i < session.scope)
    (hentry : table.entries[i]? = some entry)
    (hseed : entry.flags.isRoot session.options = true ∨ (session.role entry).location = true)
    (htoggles : ∀ j found, table.MayEnter i j → table.entries[j]? = some found →
      ∀ sign function argument, Condition.Inside (.call sign function argument) found.tree →
        function.takesNumber = false) :
    ∃ marked, session.markInto names = .ok marked ∧
      ∀ has has' : Holdings, (∀ name ∈ marked, ∀ quantity, has name quantity = has' name quantity) →
        session.canReach has entry.name = session.canReach has' entry.name := by
  obtain ⟨hsound, -⟩ := htable.sound
  obtain rfl := table_of_session hsession
  obtain ⟨marked, hmarked⟩ := markInto_eq_ok hsound (hsound.scope_le hsession) names
  refine ⟨marked, hmarked, fun has has' hagree => ?_⟩
  have hgear : ∀ j found, session.table.MayEnter i j → session.table.entries[j]? = some found →
      ∀ sign argument, ¬Condition.Inside (.call sign .gearPower argument) found.tree :=
    fun j found hmay hfound sign argument hin => by
      cases htoggles j found hmay hfound sign _ argument hin
  have hindex := hsound.indexOf?_name hentry
  rw [canReach_eq_enter hsound hindex, canReach_eq_enter hsound hindex]
  refine enter_congr_of_asks hsound (Table.lt_of_indexOf? hindex)
    fun j found hmay hfound name quantity hasks => hagree name ?_ quantity
  have hj : session.Entered j := entered_of_mayEnter (.seed hscope hentry hseed) hgear hmay
  exact mem_markInto_of_assured hmarked (hasks.assured hj hfound (htoggles j found hmay hfound))

/-- A temple behind a shrine. -/
def shrineTable : Table where
  entries := [
    { name := "Ore", flags := .ofList [(.item, none)], tree := .group true none [],
      itemName := some "Ore", line := 1, copy := none },
    { name := "Shrine", flags := ∅,
      tree := .group true (some .and) [.item true 0 1, .call true .calamity none],
      itemName := none, line := 2, copy := none },
    { name := "Temple", flags := .ofList [(.location, none)],
      tree := .group true (some .and) [.location true 1, .item false 3 1],
      itemName := none, line := 3, copy := none },
    { name := "Key", flags := .ofList [(.item, none)], tree := .group true none [],
      itemName := some "Key", line := 4, copy := none },
    { name := "Stone", flags := .ofList [(.item, none)], tree := .group true none [],
      itemName := some "Stone", line := 5, copy := none }]
  goals := []
  labels := []
  rewards := []
  capabilities := {}

/-- The shrine was marked before, but the ore that it asks for still is found.  Stones have no
influence. -/
theorem canReach_congr_of_marked_shrineTable : ∃ table session marked,
    Table.ofTexts ("Ore;Item;\nShrine;;Ore & @calamity;\nTemple;Location;#Shrine & ~Key;\n" ++
        "Key;Item;\nStone;Item;") "" = .ok table ∧
      table.session {} = .ok session ∧
      session.markInto (.ofList ["Shrine"]) = .ok marked ∧
      marked.names = ["Key", "Ore", "Shrine"] ∧
      ∀ has has' : Holdings, (∀ name ∈ marked, ∀ quantity, has name quantity = has' name quantity) →
        session.canReach has "Temple" = session.canReach has' "Temple" := by
  have htexts : Table.ofTexts ("Ore;Item;\nShrine;;Ore & @calamity;\n" ++
      "Temple;Location;#Shrine & ~Key;\nKey;Item;\nStone;Item;") "" = .ok shrineTable := by cbv
  have hsession : shrineTable.session {} = .ok ⟨shrineTable, {}, none⟩ := rfl
  have hscope : 2 < scope ⟨shrineTable, {}, none⟩ := by decide
  have hentry : shrineTable.entries[2]? = some shrineTable.entries[2] := rfl
  have htoggles : ∀ entry ∈ shrineTable.entries, ∀ sign function argument,
      Condition.Inside (.call sign function argument) entry.tree →
        function.takesNumber = false := by
    simp [shrineTable, Condition.inside_group, Condition.inside_item, Condition.inside_location,
      Condition.inside_call, Builtin.takesNumber]
  obtain ⟨marked, hmarked, hcongr⟩ := canReach_congr_of_marked (.inl ⟨_, _, htexts⟩) hsession
    (.ofList ["Shrine"]) hscope hentry (.inr rfl)
    fun _ found _ hfound => htoggles found (List.mem_of_getElem? hfound)
  have hnames : (markInto ⟨shrineTable, {}, none⟩ (.ofList ["Shrine"])).map NameSet.names =
      .ok ["Key", "Ore", "Shrine"] := rfl
  rw [hmarked] at hnames
  exact ⟨_, _, marked, htexts, hsession, hmarked, Except.ok.inj hnames, hcongr⟩

end Session

end Reachability
