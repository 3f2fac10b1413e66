import Reachability.Proofs.Session.Evaluate
import Reachability.Session.Progression
import Reachability.Table.Sheets

/-!
# Session — marking

Marking walks each tree at most once.  What is left of the depth and what was walked already
together make up at least all entries (`walks_walkWithin`), so the depth never runs out.
-/

namespace Reachability

namespace Marks

/-- Different entries below `count` were walked. -/
structure Fits (count : Nat) (marks : Marks) : Prop where
  nodup : marks.walked.Nodup
  below : ∀ i ∈ marks.walked, i < count

/-- A step from `marks` succeeds, and nothing that was walked is forgotten. -/
def Advances (count : Nat) (marks : Marks) (step : Except QueryError Marks) : Prop :=
  ∃ marks', step = .ok marks' ∧ marks'.Fits count ∧ marks.walked.length ≤ marks'.walked.length

variable {count : Nat} {marks : Marks}

theorem Fits.addName (h : marks.Fits count) (name : String) : (marks.addName name).Fits count :=
  ⟨h.nodup, h.below⟩

/-- Once as many entries were walked as there are, each one was. -/
theorem Fits.contains (h : marks.Fits count) (hall : count ≤ marks.walked.length) {i : Nat}
    (hi : i < count) : marks.walked.contains i = true := by
  by_contra hnot
  rw [List.contains_iff_mem] at hnot
  -- with `i` more entries would be walked than there are
  have hnodup : (i :: marks.walked).Nodup := List.nodup_cons.mpr ⟨hnot, h.nodup⟩
  have hle := hnodup.length_le_of_subset fun n hn => List.mem_range.mpr (by
    rcases List.mem_cons.mp hn with rfl | hn
    · exact hi
    · exact h.below n hn)
  rw [List.length_cons, List.length_range] at hle
  omega

theorem advances_ok (h : marks.Fits count) : marks.Advances count (.ok marks) :=
  ⟨marks, rfl, h, Nat.le_refl _⟩

theorem advances_addName (h : marks.Fits count) (name : String) :
    marks.Advances count (.ok (marks.addName name)) :=
  ⟨_, rfl, h.addName name, Nat.le_refl _⟩

theorem Advances.bind {step : Except QueryError Marks} {next : Marks → Except QueryError Marks}
    (h : marks.Advances count step)
    (hnext : ∀ marks' : Marks, marks'.Fits count → marks.walked.length ≤ marks'.walked.length →
      marks'.Advances count (next marks')) : marks.Advances count (step >>= next) := by
  obtain ⟨marks', rfl, hfits, hle⟩ := h
  obtain ⟨marks'', hok, hfits', hle'⟩ := hnext marks' hfits hle
  exact ⟨marks'', hok, hfits', Nat.le_trans hle hle'⟩

/-- Steps that advance from any marks with at least `least` entries walked advance one after
another. -/
theorem advances_foldlM {α : Type} {least : Nat} {step : Marks → α → Except QueryError Marks}
    {as : List α} (hstep : ∀ a ∈ as, ∀ marks : Marks, marks.Fits count →
      least ≤ marks.walked.length → marks.Advances count (step marks a))
    (h : marks.Fits count) (hleast : least ≤ marks.walked.length) :
    marks.Advances count (as.foldlM step marks) := by
  induction as generalizing marks with
  | nil => exact advances_ok h
  | cons a as ih =>
    rw [List.foldlM_cons]
    exact (hstep a List.mem_cons_self marks h hleast).bind fun marks' hfits hle =>
      ih (fun b hb => hstep b (List.mem_cons_of_mem a hb)) hfits (Nat.le_trans hleast hle)

end Marks

namespace Session

variable {session : Session} {walk : Nat → Marks → Except QueryError Marks} {least : Nat}

/-- Walking any entry advances from any marks with at least `least` entries walked. -/
def Walks (session : Session) (least : Nat) (walk : Nat → Marks → Except QueryError Marks) : Prop :=
  ∀ i < session.table.entries.length, ∀ marks : Marks, marks.Fits session.table.entries.length →
    least ≤ marks.walked.length → marks.Advances session.table.entries.length (walk i marks)

/-- Looking for adequate gear succeeds, and what is found is some of the gear. -/
theorem firstAdequate?_eq_ok {n : UInt64} {gear : List (Nat × UInt64)}
    (h : ∀ group ∈ gear, group.1 < session.table.entries.length) :
    ∃ found, session.firstAdequate? n gear = .ok found ∧ ∀ group ∈ found, group ∈ gear := by
  induction gear with
  | nil => exact ⟨none, rfl, nofun⟩
  | cons group rest ih =>
    obtain ⟨adequate, hadequate⟩ : ∃ adequate, session.isAdequate n group = .ok adequate :=
      (failsOnly_isAdequate (h group List.mem_cons_self)).exists_ok
    obtain ⟨found, hfound, hmem⟩ := ih fun g hg => h g (List.mem_cons_of_mem group hg)
    cases adequate with
    | true =>
      refine ⟨some group, ?_, fun g hg => ?_⟩
      · simp only [firstAdequate?, List.findM?, hadequate, bind, Except.bind]
        rfl
      · cases hg
        exact List.mem_cons_self
    | false =>
      refine ⟨found, ?_, fun g hg => List.mem_cons_of_mem group (hmem g hg)⟩
      rw [← hfound]
      simp only [firstAdequate?, List.findM?, hadequate, bind, Except.bind]

theorem markTrees_eq_foldlM (trees : List Tree) (marks : Marks) :
    session.markTrees walk trees marks =
      trees.foldlM (fun marks c => session.markTree walk c marks) marks := by
  induction trees generalizing marks with
  | nil => rfl
  | cons c rest ih =>
    rw [markTrees, List.foldlM_cons]
    exact Except.bind_congr_of_ok fun marks' _ => ih marks'

section
variable (hsound : session.table.Sound)
include hsound

theorem advances_markGear (hwalk : session.Walks least walk) {n : UInt64} {marks : Marks}
    (h : marks.Fits session.table.entries.length) (hleast : least ≤ marks.walked.length) :
    marks.Advances session.table.entries.length (session.markGear walk n marks) := by
  refine Marks.advances_foldlM (fun gear hgear marks h hleast => ?_) h hleast
  have hlt : ∀ group ∈ gear, group.1 < session.table.entries.length := fun group hgroup =>
    hsound.capabilities group.1 (Capabilities.mem_indices_of_mem_gear
      (List.mem_map_of_mem (List.mem_flatten_of_mem hgear hgroup)))
  obtain ⟨found, hfound, hmem⟩ := firstAdequate?_eq_ok (n := n) hlt
  rw [hfound]
  cases found with
  | none => exact Marks.advances_ok h
  | some group => exact hwalk group.1 (hlt group (hmem group rfl)) marks h hleast

/-- Marking a tree over the table advances if walking does. -/
theorem advances_markTree (hwalk : session.Walks least walk) {tree : Tree}
    (hreferences : ∀ index ∈ tree.references, index < session.table.entries.length)
    (hcalls : tree.Suited) {marks : Marks} (h : marks.Fits session.table.entries.length)
    (hleast : least ≤ marks.walked.length) :
    marks.Advances session.table.entries.length (session.markTree walk tree marks) := by
  induction tree using Condition.induct generalizing marks with
  | item sign target quantity =>
    have htarget := hreferences target List.mem_cons_self
    rw [markTree, entryAt_eq_ok htarget]
    change marks.Advances _ (if _ then _ else _)
    split
    · exact hwalk target htarget _ (h.addName _) hleast
    · exact Marks.advances_addName h _
  | location sign target =>
    have htarget := hreferences target List.mem_cons_self
    rw [markTree, entryAt_eq_ok htarget]
    exact hwalk target htarget _ (h.addName _) hleast
  | call sign function argument =>
    unfold markTree
    split
    · next hgear =>
      subst hgear
      obtain ⟨n, hn, -⟩ := threshold_eq_ok rfl (Condition.suited_call.mp hcalls)
      rw [hn]
      exact advances_markGear hsound hwalk h hleast
    · exact Marks.advances_ok h
  | group sign operator members ih =>
    rw [markTree, markTrees_eq_foldlM]
    refine Marks.advances_foldlM (fun c hc marks h hleast => ?_) h hleast
    exact ih c hc
      (fun index hindex => hreferences index (Condition.mem_references_group.mpr ⟨c, hc, hindex⟩))
      (Condition.suited_group.mp hcalls c hc) h hleast

/-- Walking succeeds if what is left of the depth and what was walked make up all entries. -/
theorem walks_walkWithin {depth : Nat} (hdepth : session.table.entries.length ≤ least + depth) :
    session.Walks least (session.walkWithin depth) := by
  induction depth generalizing least with
  | zero =>
    intro i hi marks h hleast
    rw [walkWithin, if_pos (h.contains (Nat.le_trans hdepth hleast) hi)]
    exact Marks.advances_ok h
  | succ depth ih =>
    intro i hi marks h hleast
    unfold walkWithin
    split
    · exact Marks.advances_ok h
    · next hnew =>
      rw [List.contains_iff_mem] at hnew
      have hmem : session.table.entries[i] ∈ session.table.entries := List.getElem_mem hi
      have hfits : Marks.Fits session.table.entries.length
          { marks with walked := i :: marks.walked } := by
        refine ⟨List.nodup_cons.mpr ⟨hnew, h.nodup⟩, fun j hj => ?_⟩
        rcases List.mem_cons.mp hj with rfl | hj
        · exact hi
        · exact h.below j hj
      rw [entryAt_eq_ok hi]
      -- one more entry is walked than `least`, and one level less is left
      have hwalk : session.Walks (least + 1) (session.walkWithin depth) := ih (by omega)
      obtain ⟨marks', hok, hfits', hle⟩ := advances_markTree hsound hwalk
        (hsound.references _ hmem) (hsound.calls _ hmem) hfits (Nat.succ_le_succ hleast)
      exact ⟨marks', hok, hfits', Nat.le_of_succ_le hle⟩

theorem advances_markEntry {i : Nat} (hi : i < session.table.entries.length) {marks : Marks}
    (h : marks.Fits session.table.entries.length) :
    marks.Advances session.table.entries.length (session.markEntry marks i) := by
  have hwalk : session.Walks 0 session.walk := walks_walkWithin hsound (Nat.le_add_left _ _)
  rw [markEntry, entryAt_eq_ok hi]
  simp only [bind, Except.bind]
  cases session.table.entries[i].flags.isRoot session.options with
  | true => exact hwalk i hi _ (h.addName _) (Nat.zero_le _)
  | false =>
    simp only [Bool.false_or, Bool.false_eq_true, if_false]
    split
    · exact hwalk i hi _ h (Nat.zero_le _)
    · exact Marks.advances_ok h

/-- Marking adds to any names, if the scope lies within the table. -/
theorem markInto_eq_ok (hscope : session.scope ≤ session.table.entries.length) (names : NameSet) :
    ∃ marked, session.markInto names = .ok marked := by
  have hempty : Marks.Fits session.table.entries.length { names } := ⟨List.nodup_nil, nofun⟩
  obtain ⟨marks, hmarks, -⟩ : Marks.Advances session.table.entries.length { names }
      ((List.range session.scope).foldlM session.markEntry { names }) :=
    Marks.advances_foldlM (fun i hi marks h _ => advances_markEntry hsound
      (Nat.lt_of_lt_of_le (List.mem_range.mp hi) hscope) h) hempty (Nat.zero_le 0)
  exact ⟨marks.names, by rw [markInto, hmarks]; rfl⟩

end

end Session

/-! ### Tables that are read -/

namespace Table

/-- A table of two texts or a stored one. -/
def IsRead (table : Table) : Prop :=
  (∃ rules rewards, ofTexts rules rewards = .ok table) ∨ ∃ blob, ofBytes blob = .ok table

variable {table : Table}

/-- A table of two texts is sound, and its groups are joined. -/
theorem sound_of_ofTexts {rules rewards : String} (h : ofTexts rules rewards = .ok table) :
    table.Sound ∧ table.Joined := by
  unfold ofTexts at h
  split at h
  · cases h
  · next sheet hsheet =>
    split at h
    · cases h
    · split at h
      · cases h
      · next hcompile =>
        cases h
        exact ⟨sound_of_compile hcompile,
          joined_of_compile hcompile (RuleSheet.joined_of_parse hsheet)⟩

theorem IsRead.sound (h : table.IsRead) : table.Sound ∧ table.Joined := by
  rcases h with ⟨rules, rewards, h⟩ | ⟨blob, h⟩
  · exact sound_of_ofTexts h
  · exact sound_of_ofBytes h

/-- A name of the table has an index. -/
theorem exists_indexOf? {name : String} (h : name ∈ table.names) :
    ∃ index, table.indexOf? name = some index ∧ index < table.entries.length := by
  obtain ⟨entry, hentry, rfl⟩ := List.mem_map.mp h
  have hsome : (table.indexOf? entry.name).isSome = true := by
    rw [indexOf?, List.findIdx?_isSome, List.any_eq_true]
    exact ⟨entry, hentry, beq_self_eq_true entry.name⟩
  obtain ⟨index, hindex⟩ := Option.isSome_iff_exists.mp hsome
  exact ⟨index, hindex, lt_of_indexOf? hindex⟩

/-- An entry is found under the name of any entry. -/
theorem exists_found {entry : Entry} (h : entry ∈ table.entries) :
    ∃ found, table.entry? entry.name = some found ∧ found ∈ table.entries := by
  have hsome : (table.entry? entry.name).isSome = true := by
    unfold entry?
    rw [List.find?_isSome]
    exact ⟨entry, h, beq_self_eq_true entry.name⟩
  obtain ⟨found, hfound⟩ := Option.isSome_iff_exists.mp hsome
  exact ⟨found, hfound, List.mem_of_find?_eq_some hfound⟩

/-- The goal of a session is one of the table. -/
theorem mem_goals_of_session {options : Options} {session : Session}
    (h : table.session options = .ok session) {goal : Goal} (hgoal : session.goal = some goal) :
    goal ∈ table.goals := by
  obtain ⟨selected, hselected, h⟩ := Except.bind_eq_ok_iff.mp h
  cases h
  obtain rfl : selected = some goal := hgoal
  unfold selectGoal at hselected
  split at hselected
  · exact List.mem_of_head? (Except.ok.inj hselected)
  · split at hselected
    · next found hfound =>
      cases hselected
      exact List.mem_of_find?_eq_some hfound
    · cases hselected

/-- The scope of a session lies within a sound table. -/
theorem Sound.scope_le (hsound : table.Sound) {options : Options} {session : Session}
    (h : table.session options = .ok session) : session.scope ≤ table.entries.length := by
  obtain rfl := Session.table_of_session h
  unfold Session.scope
  split
  · next goal hgoal => exact hsound.stop_le (mem_goals_of_session h hgoal)
  · exact Nat.le_refl _

end Table

namespace Session

/-- Queries of a table that is read succeed.  Every rule of the table can be asked for, and marking
adds to any names.  Whatever is looked up by index is there: the entries that trees, capabilities
and goals name, and the nodes of the search for cycles, which runs on a payload before it is
known to be a table. -/
theorem queries_succeed {table : Table} (htable : table.IsRead) {options : Options}
    {session : Session} (hsession : table.session options = .ok session) :
    (∀ has : Holdings, ∀ entry ∈ table.entries, ∃ reached,
        session.canReach has entry.name = .ok reached) ∧
      (∀ names, ∃ marked, session.markInto names = .ok marked) ∧
      (∃ marked, session.progression = .ok marked) ∧
      (∀ goal ∈ session.goal, goal.stop ≤ table.entries.length ∧
        ∀ location ∈ goal.locations, ∃ index, table.indexOf? location = some index ∧
          index < table.entries.length) ∧
      (∀ index ∈ Cache.capabilityIndices table.capabilities, index < table.entries.length) ∧
      (∀ entry ∈ table.entries, ∀ index ∈ entry.tree.references,
        index < table.entries.length) ∧
      ∀ (payload : Cache.Payload) entries, payload.check = .ok () →
        payload.rules.mapM Cache.StoredRule.accept = .ok entries →
        ∀ start, ∀ index ∈ descentsOf entries payload.capabilities start,
          index < entries.length := by
  obtain ⟨hsound, hjoined⟩ := htable.sound
  obtain rfl := table_of_session hsession
  have hmark := markInto_eq_ok hsound (hsound.scope_le hsession)
  refine ⟨fun has entry hentry => ?_, hmark, hmark ∅, fun goal hgoal => ?_, hsound.capabilities,
    hsound.references, fun payload entries hcheck hentries start index hindex => ?_⟩
  · obtain ⟨found, hfound, hmem⟩ := Table.exists_found hentry
    obtain ⟨reached, hreached⟩ : ∃ reached, session.evaluate has found.tree = .ok reached :=
      (failsOnly_evaluate_session hsound (.inl hjoined) (hsound.references found hmem)
        (hsound.calls found hmem) (.inl (hjoined found hmem))).exists_ok
    exact ⟨reached, by rw [canReach, entryNamed, hfound]; exact hreached⟩
  · -- the scope and the locations of the goal
    have hgoal := Table.mem_goals_of_session hsession hgoal
    exact ⟨hsound.stop_le hgoal, fun location hlocation =>
      Table.exists_indexOf? (hsound.locations goal hgoal location hlocation)⟩
  · have hchecked := Cache.Payload.check_eq_ok_iff.mp hcheck
    exact descentsOf_lt
      (fun _ hentry _ hindex => Cache.references_lt_of_checked hchecked hentries hentry hindex)
      (fun _ hindex => Cache.capabilities_lt_of_checked hchecked hentries hindex) hindex

theorem queries_succeed_torchTable :
    ∃ table session, Table.ofTexts ("Torch;Location;Gel(2) & #Cave;\n" ++
        "Cave;Location;@gear_power(10);\nGel;Item;\nSword;Item|Weapon Power(20);\n#night") "" =
          .ok table ∧
      table.session {} = .ok session ∧
      ∀ has, ∃ reached, session.canReach has "Torch" = .ok reached := by
  have htexts : Table.ofTexts ("Torch;Location;Gel(2) & #Cave;\n" ++
      "Cave;Location;@gear_power(10);\nGel;Item;\nSword;Item|Weapon Power(20);\n#night") "" =
        .ok Table.torchTable := by cbv
  have hsession : Table.torchTable.session {} =
      .ok ⟨Table.torchTable, {}, some ⟨"night", 4, ∅⟩⟩ := rfl
  exact ⟨_, _, htexts, hsession, fun has =>
    (queries_succeed (.inl ⟨_, _, htexts⟩) hsession).1 has _ List.mem_cons_self⟩

end Session

end Reachability
