import Reachability.Proofs.Session.Coverage

/-!
# Session — marking adds to what is there

An event is not walked when its name is marked already.  So names that are there from the start
can keep marking from the trees of events, and from all that it would only find through them.

* `Skippable`: the rules that marking may pass over because of the names it starts from.
* `Hidden`: the names that the trees of such rules refer to, unless marking is sure to find them.

Marking from these names and marking from none go in lockstep: they walk the same rules up to
skippable ones and mark the same names up to what the trees of these refer to (`Alike`).  So
marking into a set gives the union of the set and the progression names, up to hidden names
(`markInto_accumulates`).
-/

namespace Reachability

namespace Session

variable {session : Session} {walk : Nat → Marks → Except QueryError Marks}
  {marks marks' fresh onto : Marks} {names : NameSet}

/-! ### Names that hide others -/

/-- The tree of a rule refers to what is held under a name. -/
def Mentions (session : Session) (i : Nat) (name : String) : Prop :=
  ∃ entry target found, session.table.entries[i]? = some entry ∧
    target ∈ entry.tree.references ∧ session.table.entries[target]? = some found ∧
    session.heldName found = name

/-- Marking may pass over a rule if it starts from some names: an event that matters and is called
by one of them, what the tree of such a rule pulls in, and an event called by a name that only the
tree of such a rule may mention. -/
inductive Skippable (session : Session) (names : NameSet) : Nat → Prop
  | named {i : Nat} {entry : Entry} :
      session.Relevant i → session.table.entries[i]? = some entry →
      (session.role entry).isEvent = true → session.heldName entry ∈ names →
      Skippable session names i
  | pull {i j : Nat} {entry : Entry} :
      Skippable session names i → session.table.entries[i]? = some entry →
      session.Pulls entry.tree j → Skippable session names j
  | mentioned {i j : Nat} {entry : Entry} :
      Skippable session names i → session.Mentions i (session.heldName entry) →
      session.Relevant j → session.table.entries[j]? = some entry →
      (session.role entry).isEvent = true → Skippable session names j

/-- Whether a name is marked may depend on the names that marking starts from: it is one of them,
or the tree of a skippable rule mentions it. -/
def Loose (session : Session) (names : NameSet) (name : String) : Prop :=
  name ∈ names ∨ ∃ i, session.Skippable names i ∧ session.Mentions i name

/-- A name that marking may miss if it starts from some names: the tree of a skippable rule mentions
it, and marking is not sure to find it elsewhere. -/
def Hidden (session : Session) (names : NameSet) (name : String) : Prop :=
  (∃ i, session.Skippable names i ∧ session.Mentions i name) ∧ ¬session.Assured name

/-- An event that matters is skippable if its name is loose. -/
theorem Loose.skippable {i : Nat} {entry : Entry} (hi : session.Relevant i)
    (hentry : session.table.entries[i]? = some entry)
    (hevent : (session.role entry).isEvent = true)
    (h : session.Loose names (session.heldName entry)) : session.Skippable names i := by
  rcases h with h | ⟨j, hj, hmentions⟩
  · exact .named hi hentry hevent h
  · exact .mentioned hj hmentions hi hentry hevent

/-! ### Marks that are alike -/

/-- Two marks have the same names but loose ones, and walked the same rules but skippable ones. -/
structure Alike (session : Session) (names : NameSet) (marks marks' : Marks) : Prop where
  named : ∀ name, ¬session.Loose names name → (name ∈ marks.names ↔ name ∈ marks'.names)
  walked : ∀ i, ¬session.Skippable names i → (i ∈ marks.walked ↔ i ∈ marks'.walked)

theorem Alike.refl (session : Session) (names : NameSet) (marks : Marks) :
    session.Alike names marks marks :=
  ⟨fun _ _ => .rfl, fun _ _ => .rfl⟩

theorem Alike.symm (h : session.Alike names marks marks') : session.Alike names marks' marks :=
  ⟨fun name hname => (h.named name hname).symm, fun i hi => (h.walked i hi).symm⟩

theorem Alike.trans {marks'' : Marks} (h : session.Alike names marks marks')
    (h' : session.Alike names marks' marks'') : session.Alike names marks marks'' :=
  ⟨fun name hname => (h.named name hname).trans (h'.named name hname),
    fun i hi => (h.walked i hi).trans (h'.walked i hi)⟩

theorem Alike.addName (h : session.Alike names fresh onto) (name : String) :
    session.Alike names (fresh.addName name) (onto.addName name) :=
  ⟨fun x hx => NameSet.mem_insert.trans ((or_congr_right (h.named x hx)).trans
    NameSet.mem_insert.symm), h.walked⟩

theorem Alike.consWalked (h : session.Alike names fresh onto) (i : Nat) :
    session.Alike names { fresh with walked := i :: fresh.walked }
      { onto with walked := i :: onto.walked } :=
  ⟨h.named, fun j hj => List.mem_cons.trans ((or_congr_right (h.walked j hj)).trans
    List.mem_cons.symm)⟩

/-! ### One side goes on alone -/

theorem alike_addName {name : String} (h : session.Loose names name) :
    session.Alike names marks (marks.addName name) := by
  refine ⟨fun x hx => ⟨fun hmem => NameSet.mem_insert.mpr (.inr hmem), fun hmem => ?_⟩,
    fun _ _ => .rfl⟩
  rcases NameSet.mem_insert.mp hmem with rfl | hmem
  · exact absurd h hx
  · exact hmem

/-- Walking a skippable rule keeps the marks alike. -/
theorem alike_walkWithin {depth i : Nat} (hi : session.Skippable names i)
    (h : session.walkWithin depth i marks = .ok marks') : session.Alike names marks marks' := by
  refine walkWithin_induct (P := fun i marks marks' => session.Skippable names i →
    session.Alike names marks marks') (fun _ marks _ _ => .refl session names marks)
    (fun walk i entry marks marks' hwalk _ hentry h hi => ?_) h hi
  have hstart : session.Alike names marks { marks with walked := i :: marks.walked } := by
    refine ⟨fun _ _ => .rfl, fun j hj => ⟨List.mem_cons_of_mem i, fun hmem => ?_⟩⟩
    rcases List.mem_cons.mp hmem with rfl | hmem
    · exact absurd hi hj
    · exact hmem
  refine markTree_induct (fun target htarget found hfound mid hmid => ?_)
    (fun j hj mid mid' hmid h => ?_) hstart h
  · have hloose : session.Loose names (session.heldName found) :=
      .inr ⟨i, hi, entry, target, found, hentry, htarget, hfound, rfl⟩
    exact hmid.trans (alike_addName hloose)
  · exact hmid.trans (hwalk j mid mid' h (.pull hi hentry hj))

/-! ### Both sides go on together -/

/-- Walking keeps marks alike: a skippable rule on one side alone, and any rule that matters on
both. -/
structure WalksAlike (session : Session) (names : NameSet)
    (walk : Nat → Marks → Except QueryError Marks) : Prop where
  alone : ∀ i marks marks', session.Skippable names i → walk i marks = .ok marks' →
    session.Alike names marks marks'
  together : ∀ i fresh onto, session.Relevant i → session.Alike names fresh onto →
    Except.Relates (session.Alike names) (walk i fresh) (walk i onto)

section
variable (hwalk : session.WalksAlike names walk)
include hwalk

/-- An item whose name is loose keeps the marks alike: if it is an event, it is skippable. -/
theorem alike_markTree_item {sign : Bool} {target : Nat} {quantity : UInt64} {found : Entry}
    (hfound : session.table.entries[target]? = some found)
    (hloose : session.Loose names (session.heldName found))
    (hskip : (session.role found).isEvent = true → session.Skippable names target)
    (h : session.markTree walk (.item sign target quantity) marks = .ok marks') :
    session.Alike names marks marks' := by
  obtain ⟨other, hother, h⟩ := markTree_item_cases h
  obtain rfl := Option.some.inj (hfound.symm.trans hother)
  rcases h with ⟨hevent, -, h⟩ | ⟨-, rfl⟩
  · exact (alike_addName hloose).trans (hwalk.alone target _ _ (hskip hevent) h)
  · exact alike_addName hloose

theorem relates_markTree_item {sign : Bool} {target : Nat} {quantity : UInt64}
    (hpulls : ∀ j, session.Pulls (.item sign target quantity) j → session.Relevant j)
    (h : session.Alike names fresh onto) :
    Except.Relates (session.Alike names) (session.markTree walk (.item sign target quantity) fresh)
      (session.markTree walk (.item sign target quantity) onto) := by
  intro fresh' onto' hfresh honto
  obtain ⟨found, hfound, hcases⟩ := markTree_item_cases hfresh
  obtain ⟨found', hfound', hcases'⟩ := markTree_item_cases honto
  obtain rfl := Option.some.inj (hfound.symm.trans hfound')
  have hrelevant : (session.role found).isEvent = true → session.Relevant target :=
    fun hevent => hpulls target (.event .self hfound hevent)
  by_cases hloose : session.Loose names (session.heldName found)
  · -- one side may walk the event alone
    have hskip : (session.role found).isEvent = true → session.Skippable names target :=
      fun hevent => hloose.skippable (hrelevant hevent) hfound hevent
    exact (alike_markTree_item hwalk hfound hloose hskip hfresh).symm.trans
      (h.trans (alike_markTree_item hwalk hfound hloose hskip honto))
  · -- the name is new on both sides or on none
    have hadd := h.addName (session.heldName found)
    have hiff := h.named _ hloose
    rcases hcases with ⟨hevent, hnew, hfresh⟩ | ⟨hold, rfl⟩ <;>
      rcases hcases' with ⟨hevent', hnew', honto⟩ | ⟨hold', rfl⟩
    · exact hwalk.together target _ _ (hrelevant hevent) hadd _ _ hfresh honto
    · exact absurd (hiff.mpr (hold' hevent)) hnew
    · exact absurd (hiff.mp (hold hevent')) hnew'
    · exact hadd

theorem relates_markGear {n : UInt64}
    (hpulls : ∀ gear ∈ session.table.capabilities.gearTables, ∀ group,
      session.FirstSuiting n gear group → session.Relevant group.1)
    (h : session.Alike names fresh onto) :
    Except.Relates (session.Alike names) (session.markGear walk n fresh)
      (session.markGear walk n onto) := by
  refine Except.relates_foldlM (fun gear hgear fresh onto h => ?_) h
  intro fresh' onto' hfresh honto
  obtain ⟨found, hfound, hfresh⟩ := Except.bind_eq_ok_iff.mp hfresh
  obtain ⟨found', hfound', honto⟩ := Except.bind_eq_ok_iff.mp honto
  obtain rfl := Except.ok.inj (hfound.symm.trans hfound')
  cases found with
  | none =>
    cases hfresh
    cases honto
    exact h
  | some group =>
    have hrelevant := hpulls gear hgear group ((firstAdequate?_spec hfound).mp rfl)
    exact hwalk.together group.1 _ _ hrelevant h _ _ hfresh honto

/-- Marking a tree that pulls in only what matters keeps marks alike. -/
theorem relates_markTree {tree : Tree} (hpulls : ∀ j, session.Pulls tree j → session.Relevant j)
    (h : session.Alike names fresh onto) :
    Except.Relates (session.Alike names) (session.markTree walk tree fresh)
      (session.markTree walk tree onto) := by
  induction tree using Condition.induct generalizing fresh onto with
  | item sign target quantity => exact relates_markTree_item hwalk hpulls h
  | location sign target =>
    intro fresh' onto' hfresh honto
    obtain ⟨found, hfound, hfresh⟩ := markTree_location_cases hfresh
    obtain ⟨found', hfound', honto⟩ := markTree_location_cases honto
    obtain rfl := Option.some.inj (hfound.symm.trans hfound')
    exact hwalk.together target _ _ (hpulls target (.location .self)) (h.addName _) _ _ hfresh honto
  | call sign function argument =>
    intro fresh' onto' hfresh honto
    rcases markTree_call_cases hfresh with ⟨n, rfl, rfl, hfresh⟩ | ⟨hother, rfl⟩ <;>
      rcases markTree_call_cases honto with ⟨m, hgear, hm, honto⟩ | ⟨hother', rfl⟩
    · cases hm
      exact relates_markGear hwalk (fun gear hgear group hfirst =>
        hpulls group.1 (.gear .self hgear hfirst)) h _ _ hfresh honto
    · exact absurd rfl hother'
    · exact absurd hgear hother
    · exact h
  | group sign operator members ih =>
    rw [markTree, markTree, markTrees_eq_foldlM, markTrees_eq_foldlM]
    refine Except.relates_foldlM (fun c hc fresh onto h => ?_) h
    exact ih c hc (fun j hj => hpulls j (pulls_group.mpr ⟨c, hc, hj⟩)) h

end

/-- Walking within any depth keeps marks alike. -/
theorem walksAlike_walkWithin (depth : Nat) :
    session.WalksAlike names (session.walkWithin depth) := by
  induction depth using Nat.strong_induction_on with
  | _ depth ih =>
    refine ⟨fun _ _ _ => alike_walkWithin, fun i fresh onto hi h => ?_⟩
    intro fresh' onto' hfresh honto
    by_cases hskip : session.Skippable names i
    · exact (alike_walkWithin hskip hfresh).symm.trans (h.trans (alike_walkWithin hskip honto))
    · -- the rule was walked before on both sides or on none
      have hiff := h.walked i hskip
      rcases walkWithin_cases hfresh with ⟨hold, rfl⟩ | ⟨hnew, rest, entry, rfl, hentry, hfresh⟩ <;>
        rcases walkWithin_cases honto with ⟨hold', rfl⟩ | ⟨hnew', _, _, hrest, hentry', honto⟩
      · exact h
      · exact absurd (hiff.mp hold) hnew'
      · exact absurd (hiff.mpr hold') hnew
      · cases hrest
        cases hentry.symm.trans hentry'
        have hpulls : ∀ j, session.Pulls entry.tree j → session.Relevant j :=
          fun j hj => .pull hi hentry hj
        exact relates_markTree (ih rest (Nat.lt_succ_self rest)) hpulls (h.consWalked i) _ _ hfresh
          honto

/-! ### Marking from some names and from none -/

/-- Marking an entry in scope keeps marks alike. -/
theorem relates_markEntry {i : Nat} (hi : i < session.scope) (h : session.Alike names fresh onto) :
    Except.Relates (session.Alike names) (session.markEntry fresh i)
      (session.markEntry onto i) := by
  intro fresh' onto' hfresh honto
  obtain ⟨entry, start, hentry, hstart, hcases⟩ := markEntry_cases hfresh
  obtain ⟨entry', start', hentry', hstart', hcases'⟩ := markEntry_cases honto
  obtain rfl := Option.some.inj (hentry.symm.trans hentry')
  have h : session.Alike names start start' := by
    rw [hstart, hstart']
    split
    · exact h.addName _
    · exact h
  rcases hcases with ⟨hseed, hfresh⟩ | ⟨hnot, rfl⟩ <;>
    rcases hcases' with ⟨hseed', honto⟩ | ⟨hnot', rfl⟩
  · exact (walksAlike_walkWithin _).together i _ _ (.seed hi hentry hseed) h _ _ hfresh honto
  · exact absurd hseed hnot'
  · exact absurd hseed' hnot
  · exact h

/-- Marking from some names finds the same as marking from none, but for loose names. -/
theorem mem_markInto_iff {progress marked : NameSet}
    (hprogress : session.progression = .ok progress) (hmarked : session.markInto names = .ok marked)
    {name : String} (hname : ¬session.Loose names name) : name ∈ progress ↔ name ∈ marked := by
  obtain ⟨fresh, hfresh, h⟩ := Except.bind_eq_ok_iff.mp hprogress
  cases h
  obtain ⟨onto, honto, h⟩ := Except.bind_eq_ok_iff.mp hmarked
  cases h
  have hstart : session.Alike names { names := ∅ } { names } :=
    ⟨fun x hx => iff_of_false (NameSet.not_mem_empty x) fun hmem => hx (.inl hmem),
      fun _ _ => .rfl⟩
  have hruns : Except.Relates (session.Alike names)
      ((List.range session.scope).foldlM session.markEntry { names := ∅ })
      ((List.range session.scope).foldlM session.markEntry { names }) := by
    refine Except.relates_foldlM (fun i hi fresh onto h => ?_) hstart
    exact relates_markEntry (List.mem_range.mp hi) h
  have halike := hruns fresh onto hfresh honto
  exact halike.named name hname

/-- Marking into a set succeeds, keeps the names of the set, and adds nothing but progression.  It
leaves the union of the set and of what marking finds from nothing, but for names that the set may
hide; so it leaves exactly that if the set has all the names that it may hide. -/
theorem markInto_accumulates {table : Table} (htable : table.IsRead) {options : Options}
    {session : Session} (hsession : table.session options = .ok session) (names : NameSet) :
    ∃ marked progress, session.markInto names = .ok marked ∧ session.progression = .ok progress ∧
      (∀ name ∈ names, name ∈ marked) ∧
      (∀ name ∈ marked, name ∈ names ∨ session.ProgressionName name) ∧
      ∀ name, (session.Hidden names name → name ∈ names) →
        (name ∈ marked ↔ name ∈ names ∨ name ∈ progress) := by
  obtain ⟨hsound, -⟩ := htable.sound
  obtain rfl := table_of_session hsession
  have hmark := markInto_eq_ok hsound (hsound.scope_le hsession)
  obtain ⟨marked, hmarked⟩ := hmark names
  obtain ⟨progress, hprogress⟩ := hmark ∅
  refine ⟨marked, progress, hmarked, hprogress, fun _ => mem_markInto_of_mem hmarked,
    within_markInto hmarked, fun name hhidden => ?_⟩
  by_cases hname : name ∈ names
  · exact iff_of_true (mem_markInto_of_mem hmarked hname) (.inl hname)
  · rw [or_iff_right hname]
    by_cases hassured : session.Assured name
    · exact iff_of_true (mem_markInto_of_assured hmarked hassured)
        (mem_markInto_of_assured hprogress hassured)
    · have hloose : ¬session.Loose names name := by
        rintro (h | h)
        · exact hname h
        · exact hname (hhidden ⟨h, hassured⟩)
      exact (mem_markInto_iff hprogress hmarked hloose).symm

/-- A temple that opens in hardmode, which takes ore. -/
def templeTable : Table where
  entries := [
    { name := "Ore", flags := .ofList [(.item, none)], tree := .group true none [],
      itemName := some "Ore", line := 1, copy := none },
    { name := "Hardmode", flags := ∅, tree := .group true none [.item true 0 1],
      itemName := none, line := 2, copy := none },
    { name := "Temple", flags := .ofList [(.location, none)],
      tree := .group true (some .and) [.item true 1 1, .item true 3 1],
      itemName := none, line := 3, copy := none },
    { name := "Key", flags := .ofList [(.item, none)], tree := .group true none [],
      itemName := some "Key", line := 4, copy := none }]
  goals := []
  labels := []
  rewards := []
  capabilities := {}

/-- A session of the temple. -/
def templeSession : Session := ⟨templeTable, {}, none⟩

theorem templeTable_of_texts : Table.ofTexts ("Ore;Item;\nHardmode;;Ore;\n" ++
    "Temple;Location;Hardmode & Key;\nKey;Item;") "" = .ok templeTable := by cbv

/-- The only event is hardmode. -/
theorem eq_one_of_isEvent_templeSession {i : Nat} {entry : Entry}
    (hentry : templeSession.table.entries[i]? = some entry)
    (hevent : (templeSession.role entry).isEvent = true) : i = 1 := by
  match i, hentry with
  | 1, _ => rfl
  | 0, rfl | 2, rfl | 3, rfl => cases hevent

/-- Hardmode hides only the ore, so marking into a set of both leaves the union. -/
theorem markInto_accumulates_templeTable : ∃ table session marked progress,
    Table.ofTexts ("Ore;Item;\nHardmode;;Ore;\n" ++
        "Temple;Location;Hardmode & Key;\nKey;Item;") "" = .ok table ∧
      table.session {} = .ok session ∧
      session.markInto (.ofList ["Hardmode", "Ore"]) = .ok marked ∧
      session.progression = .ok progress ∧
      ∀ name, name ∈ marked ↔ name ∈ NameSet.ofList ["Hardmode", "Ore"] ∨ name ∈ progress := by
  have hsession : templeTable.session {} = .ok templeSession := rfl
  obtain ⟨marked, progress, hmarked, hprogress, -, -, hunion⟩ :=
    markInto_accumulates (.inl ⟨_, _, templeTable_of_texts⟩) hsession (.ofList ["Hardmode", "Ore"])
  have hskippable : ∀ i, templeSession.Skippable (.ofList ["Hardmode", "Ore"]) i → i = 1 := by
    intro i hi
    induction hi with
    | named _ hentry hevent => exact eq_one_of_isEvent_templeSession hentry hevent
    | mentioned _ _ _ hentry hevent => exact eq_one_of_isEvent_templeSession hentry hevent
    | pull _ hentry hpulls ih =>
      subst ih
      obtain rfl := Option.some.inj hentry
      cases hpulls with
      | location h => simp [Condition.inside_group, Condition.inside_item] at h
      | event _ hfound hevent => exact eq_one_of_isEvent_templeSession hfound hevent
      | gear h => simp [Condition.inside_group, Condition.inside_item] at h
  refine ⟨_, _, marked, progress, templeTable_of_texts, hsession, hmarked, hprogress,
    fun name => hunion name ?_⟩
  rintro ⟨⟨i, hi, entry, target, found, hentry, htarget, hfound, rfl⟩, -⟩
  obtain rfl := hskippable i hi
  obtain rfl := Option.some.inj hentry
  obtain rfl := List.mem_singleton.mp htarget
  obtain rfl := Option.some.inj hfound
  exact NameSet.mem_ofList.mpr (List.mem_cons_of_mem _ List.mem_cons_self)

/-- Hardmode alone hides the ore, and marking into it misses the ore. -/
theorem markInto_accumulates_fails : ∃ table session marked progress,
    Table.ofTexts ("Ore;Item;\nHardmode;;Ore;\n" ++
        "Temple;Location;Hardmode & Key;\nKey;Item;") "" = .ok table ∧
      table.session {} = .ok session ∧
      session.markInto (.ofList ["Hardmode"]) = .ok marked ∧
      session.progression = .ok progress ∧
      ¬∀ name, name ∈ marked ↔ name ∈ NameSet.ofList ["Hardmode"] ∨ name ∈ progress := by
  refine ⟨templeTable, templeSession, .ofList ["Hardmode", "Key"],
    .ofList ["Hardmode", "Key", "Ore"], templeTable_of_texts, rfl, rfl, rfl, fun hunion => ?_⟩
  have hmissed : "Ore" ∈ NameSet.ofList ["Hardmode", "Key"] :=
    (hunion "Ore").mpr (.inr (by simp))
  simp at hmissed

end Session

end Reachability
