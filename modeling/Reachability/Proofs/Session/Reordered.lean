import Reachability.Proofs.Cache.Store
import Reachability.Proofs.Session.Marking
import Reachability.Proofs.Table.Reordered
import Reachability.Session.Evaluate

/-!
# Session — flags in another order

Sessions of tables that differ only in the order of flags answer every question alike
(`Session.SameAnswers`).  They look at the flags of an entry for its role, to tell whether gear is
adequate, and where marking starts; everything else follows from these.

`Table.sameAnswers_of_reordered` starts at the sheets: whatever order their flags are in, they
compile to tables whose sessions answer alike.
-/

namespace Reachability

/-! ### Flags and entries under options -/

namespace Flags.Reordered

variable {flags flags' : Flags} (h : flags.Reordered flags') (options : Options)
include h

theorem hasEffect (effect : Effect) :
    flags'.hasEffect options effect = flags.hasEffect options effect := h.any _

theorem isSpecialAchievement : flags'.isSpecialAchievement = flags.isSpecialAchievement := by
  simp only [Flags.isSpecialAchievement, h.contains]

theorem disposes : flags'.disposes options = flags.disposes options := by
  simp only [Flags.disposes, h.isSpecialAchievement, h.any]

theorem exceedsLimit (copy : Option UInt32) :
    flags'.exceedsLimit options copy = flags.exceedsLimit options copy := h.any _

theorem accepts (preference : ClassPreference) :
    preference.accepts flags' = preference.accepts flags := by
  simp only [ClassPreference.accepts, h.any, h.contains]

theorem isRoot : flags'.isRoot options = flags.isRoot options := by
  simp only [Flags.isRoot, funext h.contains]

end Flags.Reordered

theorem Entry.Reordered.role {entry entry' : Entry} (h : entry.Reordered entry')
    (options : Options) : entry'.role options = entry.role options := by
  obtain ⟨hflags⟩ := h
  simp only [Entry.role, hflags.hasEffect, hflags.accepts, hflags.disposes, hflags.exceedsLimit]

/-! ### Opening a session -/

/-- The session over the table with the flags of each entry in another order. -/
inductive Session.Reordered (session : Session) : Session → Prop
  | intro {table : Table} : session.table.Reordered table →
      Reordered session { session with table }

namespace Table.Reordered

variable {table table' : Table} (h : table.Reordered table')
include h

theorem entries : List.Forall₂ Entry.Reordered table.entries table'.entries := by
  obtain ⟨hentries⟩ := h
  exact hentries

theorem entry? (name : String) :
    Option.Rel Entry.Reordered (table.entry? name) (table'.entry? name) :=
  find?_reordered h.entries name

theorem needsCalamity : table'.needsCalamity = table.needsCalamity := by
  have hlocation (location : String) :
      (table'.entry? location).any (·.flags.contains .calamity) =
        (table.entry? location).any (·.flags.contains .calamity) := by
    have hcalamity := option_map_eq_of_rel (h.entry? location)
      fun entry entry' hentry => hentry.flags.contains .calamity
    have hany := congrArg (Option.any id) hcalamity
    rwa [Option.any_map, Option.any_map] at hany
  funext goal
  simp only [Table.needsCalamity, hlocation]

/-- Sessions of reordered tables cannot be opened for the same reason or are reordered. -/
theorem session (options : Options) :
    (table.session options).Matches Session.Reordered (table'.session options) := by
  have hselect : table'.selectGoal options = table.selectGoal options := by
    obtain ⟨-⟩ := h
    rfl
  unfold Table.session
  rw [hselect, h.needsCalamity]
  exact Except.matches_bind fun goal => .ok (.intro h)

end Table.Reordered

namespace Session.Reordered

variable {session session' : Session} (h : session.Reordered session')
include h

theorem table : session.table.Reordered session'.table := by
  obtain ⟨htable⟩ := h
  exact htable

theorem options : session'.options = session.options := by
  obtain ⟨-⟩ := h
  rfl

theorem goal : session'.goal = session.goal := by
  obtain ⟨-⟩ := h
  rfl

theorem capabilities : session'.table.capabilities = session.table.capabilities := by
  obtain ⟨⟨-⟩⟩ := h
  rfl

theorem entryAt (index : Nat) :
    (session.entryAt index).Matches Entry.Reordered (session'.entryAt index) := by
  have hfound := getElem?_reordered h.table.entries index
  unfold Session.entryAt
  generalize session.table.entries[index]? = found, session'.table.entries[index]? = found'
    at hfound ⊢
  cases hfound with
  | none => exact .error _
  | some hentry => exact .ok hentry

theorem entryNamed (name : String) :
    (session.entryNamed name).Matches Entry.Reordered (session'.entryNamed name) := by
  have hfound := h.table.entry? name
  unfold Session.entryNamed
  generalize session.table.entry? name = found, session'.table.entry? name = found' at hfound ⊢
  cases hfound with
  | none => exact .error _
  | some hentry => exact .ok hentry

theorem scope : session'.scope = session.scope := by
  unfold Session.scope
  rw [h.goal, h.table.entries.length_eq]

theorem goalItems : session'.goalItems = session.goalItems := by
  have hitem (location : String) : (session'.table.entry? location).map Entry.defaultItemName =
      (session.table.entry? location).map Entry.defaultItemName :=
    option_map_eq_of_rel (h.table.entry? location)
      fun entry entry' hentry => hentry.defaultItemName
  unfold Session.goalItems
  rw [h.goal, funext hitem]

theorem role {entry entry' : Entry} (hentry : entry.Reordered entry') :
    session'.role entry' = session.role entry := by
  unfold Session.role
  rw [hentry.role, hentry.name, h.options, h.goal]

theorem heldName {entry entry' : Entry} (hentry : entry.Reordered entry') :
    session'.heldName entry' = session.heldName entry := by
  unfold Session.heldName
  rw [h.role hentry, hentry.defaultItemName, hentry.name]

theorem isAdequate (n : UInt64) : session'.isAdequate n = session.isAdequate n := by
  funext gear
  unfold Session.isAdequate
  split
  · rfl
  · refine (h.entryAt gear.1).bind_eq fun entry entry' hentry => ?_
    rw [h.options, hentry.flags.accepts]

/-! ### Evaluation -/

variable (has : Holdings) (enter : Nat → Except QueryError Bool)

theorem holds : session'.holds has = session.holds has := by
  funext index quantity
  refine (h.entryAt index).bind_eq fun entry entry' hentry => ?_
  rw [h.heldName hentry]

theorem countHeld : session'.countHeld has = session.countHeld has := by
  funext indices
  induction indices with
  | nil => rfl
  | cons index rest ih => rw [Session.countHeld, Session.countHeld, h.holds, ih]

theorem heldBonuses : session'.heldBonuses has = session.heldBonuses has := by
  funext bonuses
  induction bonuses with
  | nil => rfl
  | cons bonus rest ih => rw [Session.heldBonuses, Session.heldBonuses, h.holds, ih]

theorem holdsPower : session'.holdsPower has = session.holdsPower has := by
  funext n tools
  simp only [Session.holdsPower, h.holds]

theorem gearAdequate : session'.gearAdequate enter = session.gearAdequate enter := by
  funext n
  simp only [Session.gearAdequate, h.capabilities, h.isAdequate]

theorem call : session'.call has enter = session.call has enter := by
  funext function argument
  cases function <;>
    simp only [Session.call, h.capabilities, h.options, h.countHeld, h.heldBonuses, h.holdsPower,
      h.gearAdequate]

theorem meaning : session'.meaning has enter = session.meaning has enter := by
  rw [Session.meaning, Session.meaning, h.holds, h.call]

/-- A tree is entered alike at every depth: the trees of entries are the same, and what they ask
is answered alike. -/
theorem enterWithin (depth : Nat) :
    session'.enterWithin has depth = session.enterWithin has depth := by
  induction depth with
  | zero => rfl
  | succ depth ih =>
    funext index
    refine (h.entryAt index).bind_eq fun entry entry' hentry => ?_
    rw [hentry.tree, h.meaning, ih]

theorem evaluate (tree : Tree) : session'.evaluate has tree = session.evaluate has tree := by
  have henter : session'.enter has = session.enter has := by
    funext index
    rw [Session.enter, Session.enter, h.enterWithin, h.table.entries.length_eq]
  rw [Session.evaluate, Session.evaluate, h.meaning, henter]

theorem canReach (name : String) : session'.canReach has name = session.canReach has name := by
  refine (h.entryNamed name).bind_eq fun entry entry' hentry => ?_
  rw [hentry.tree, h.evaluate]

/-! ### Marking -/

variable (walk : Nat → Marks → Except QueryError Marks)

theorem markGear : session'.markGear walk = session.markGear walk := by
  funext n marks
  simp only [Session.markGear, firstAdequate?, h.capabilities, h.isAdequate]

theorem markTree (tree : Tree) (marks : Marks) :
    session'.markTree walk tree marks = session.markTree walk tree marks := by
  induction tree using Condition.induct generalizing marks with
  | item sign target quantity =>
    rw [Session.markTree, Session.markTree]
    refine (h.entryAt target).bind_eq fun entry entry' hentry => ?_
    rw [h.heldName hentry, h.role hentry]
  | location sign target =>
    rw [Session.markTree, Session.markTree]
    refine (h.entryAt target).bind_eq fun entry entry' hentry => ?_
    rw [h.heldName hentry]
  | call sign function argument =>
    rw [Session.markTree, Session.markTree, h.markGear]
  | group sign operator members ih =>
    rw [Session.markTree, Session.markTree, markTrees_eq_foldlM, markTrees_eq_foldlM]
    exact Except.foldlM_congr (fun c hc marks => ih c hc marks) marks

theorem walkWithin (depth : Nat) : session'.walkWithin depth = session.walkWithin depth := by
  induction depth with
  | zero => rfl
  | succ depth ih =>
    funext index marks
    rw [Session.walkWithin, Session.walkWithin, ih]
    split
    · rfl
    · refine (h.entryAt index).bind_eq fun entry entry' hentry => ?_
      rw [hentry.tree, h.markTree]

theorem markEntry : session'.markEntry = session.markEntry := by
  funext marks index
  refine (h.entryAt index).bind_eq fun entry entry' hentry => ?_
  simp only [hentry.flags.isRoot, hentry.defaultItemName, h.options, h.role hentry, Session.walk,
    h.walkWithin, h.table.entries.length_eq]

theorem markInto (names : NameSet) : session'.markInto names = session.markInto names := by
  rw [Session.markInto, Session.markInto, h.scope, h.markEntry]

end Session.Reordered

/-! ### All answers -/

/-- Two sessions have the same options in effect, entries of the same names and roles in the same
order, the same scope and goal items, and answer the questions for progression and for what can be
reached alike. -/
structure Session.SameAnswers (session session' : Session) : Prop where
  options : session'.options = session.options
  roles : session'.table.entries.map (fun entry => (entry.name, session'.role entry)) =
    session.table.entries.map fun entry => (entry.name, session.role entry)
  scope : session'.scope = session.scope
  goalItems : session'.goalItems = session.goalItems
  progression : session'.progression = session.progression
  canReach : ∀ has name, session'.canReach has name = session.canReach has name

theorem Session.Reordered.sameAnswers {session session' : Session}
    (h : session.Reordered session') : session.SameAnswers session' := by
  constructor
  case options => exact h.options
  case roles =>
    refine map_eq_of_forall₂ h.table.entries fun entry entry' hentry => ?_
    rw [hentry.name, h.role hentry]
  case scope => exact h.scope
  case goalItems => exact h.goalItems
  case progression => exact h.markInto ∅
  case canReach => exact h.canReach

namespace Table

/-- The order of flags does not matter: sheets that differ in nothing else fail to compile for the
same reason, or the sessions of their tables fail to open for the same reason or answer alike. -/
theorem sameAnswers_of_reordered {sheet sheet' : RuleSheet} (h : sheet.Reordered sheet')
    (rewards : RewardSheet) :
    (compile sheet rewards).Matches
      (fun table table' => ∀ options,
        (table.session options).Matches Session.SameAnswers (table'.session options))
      (compile sheet' rewards) := by
  refine (compile_reordered h rewards).imp fun table table' htable options => ?_
  exact (htable.session options).imp fun session session' hsession => hsession.sameAnswers

/-- The sheet of the torch, where the sword has its flags the other way around. -/
def turnedSheet : RuleSheet :=
  { torchSheet with rules := torchSheet.rules.take 3 ++ [
      { name := "Sword", flags := .ofList [(.weaponPower, some (.number 20)), (.item, none)],
        line := 4 }] }

theorem reordered_turnedSheet : torchSheet.Reordered turnedSheet := by
  refine .intro (.cons ?_ (.cons ?_ (.cons ?_ (.cons ?_ .nil))))
  · exact .intro (.refl _)
  · exact .intro (.refl _)
  · exact .intro (.refl _)
  · exact .intro (List.Perm.swap _ _ [])

/-- The sword arms the cave whichever of its flags comes first. -/
theorem sameAnswers_of_reordered_turnedSheet : ∃ table session session',
    torchSheet.Reordered turnedSheet ∧ compile turnedSheet {} = .ok table ∧
      torchTable.session {} = .ok session ∧ table.session {} = .ok session' ∧
      session.SameAnswers session' := by
  have hcompile : compile torchSheet {} = .ok torchTable := rfl
  have hsession : torchTable.session {} = .ok ⟨torchTable, {}, some ⟨"night", 4, ∅⟩⟩ := rfl
  have hanswers := sameAnswers_of_reordered reordered_turnedSheet {}
  rw [hcompile] at hanswers
  generalize compile turnedSheet {} = result at hanswers ⊢
  obtain @⟨_, table, hsessions⟩ := hanswers
  have hopens := hsessions {}
  rw [hsession] at hopens
  generalize hsession' : table.session {} = result at hopens
  obtain ⟨hsame⟩ := hopens
  exact ⟨table, _, _, reordered_turnedSheet, rfl, hsession, hsession', hsame⟩

end Table

end Reachability
