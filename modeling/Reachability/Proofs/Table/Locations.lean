import Reachability.Proofs.Table.Accepted

/-!
# Table — the locations of goals

An entry contributes to the goal that its `Goal` flag names, to the goal of all mechanical bosses if
it is flagged as one, and to the goal of all final bosses likewise (`Entry.Contributes`).  The
compiler looks at the second flag only where the first is missing, so a boss of both kinds is
overlooked by the goal of final bosses unless its `Goal` flag names it (`Entry.Overlooked`).

* `Entry.belongsTo_iff`: an entry is a location of a goal that it contributes to, unless it is
  overlooked.
* `Table.locations_of_compile`: the locations of a compiled goal are exactly these entries, and they
  are all entries that contribute exactly if none is overlooked.
-/

namespace Reachability

namespace Entry

variable {entry : Entry} {goal : String}

/-- The goals that an entry contributes to as a location: the one that its `Goal` flag names, and
for each kind of boss that it is flagged as the goal of this kind. -/
inductive Contributes (entry : Entry) : String → Prop
  | flag {argument : Option Argument} : entry.flags.get? .goal = some argument →
      Contributes entry (goalGiven entry.name argument)
  | mechBoss : entry.flags.contains .mechBoss = true → Contributes entry mechBossGoal
  | finalBoss : entry.flags.contains .finalBoss = true → Contributes entry finalBossGoal

/-- The entry is a boss of both kinds, and the goal is that of final bosses, which its `Goal` flag
does not name. -/
structure Overlooked (entry : Entry) (goal : String) : Prop where
  bosses : goal = finalBossGoal
  mechBoss : entry.flags.contains .mechBoss = true
  finalBoss : entry.flags.contains .finalBoss = true
  unnamed : entry.goalName? ≠ some goal

theorem mechBossGoal_ne_finalBossGoal : mechBossGoal ≠ finalBossGoal := by
  simp [mechBossGoal, finalBossGoal]

theorem contributes_iff : entry.Contributes goal ↔
    entry.goalName? = some goal ∨
      (goal = mechBossGoal ∧ entry.flags.contains .mechBoss = true) ∨
      (goal = finalBossGoal ∧ entry.flags.contains .finalBoss = true) := by
  rw [goalName?_eq_some_iff]
  constructor
  · rintro (hargument | hmech | hfinal)
    · exact .inl ⟨_, hargument, rfl⟩
    · exact .inr (.inl ⟨rfl, hmech⟩)
    · exact .inr (.inr ⟨rfl, hfinal⟩)
  · rintro (⟨argument, hargument, rfl⟩ | ⟨rfl, hmech⟩ | ⟨rfl, hfinal⟩)
    · exact .flag hargument
    · exact .mechBoss hmech
    · exact .finalBoss hfinal

/-- The flag of final bosses counts where that of mechanical bosses is missing. -/
theorem bossGoal?_eq_some_iff : entry.bossGoal? = some goal ↔
    (goal = mechBossGoal ∧ entry.flags.contains .mechBoss = true) ∨
      (goal = finalBossGoal ∧ entry.flags.contains .finalBoss = true ∧
        entry.flags.contains .mechBoss = false) := by
  unfold bossGoal?
  cases hmech : entry.flags.contains .mechBoss with
  | true => simp [@eq_comm _ goal]
  | false =>
    cases hfinal : entry.flags.contains .finalBoss with
    | true => simp [@eq_comm _ goal]
    | false => simp

/-- An entry is a location of a goal exactly if it contributes to the goal and is not overlooked. -/
theorem belongsTo_iff :
    entry.belongsTo goal = true ↔ entry.Contributes goal ∧ ¬entry.Overlooked goal := by
  rw [belongsTo, Bool.or_eq_true, beq_iff_eq, beq_iff_eq, bossGoal?_eq_some_iff, contributes_iff]
  constructor
  · rintro (hnamed | ⟨rfl, hmech⟩ | ⟨rfl, hfinal, hmech⟩)
    · exact ⟨.inl hnamed, fun h => h.unnamed hnamed⟩
    · exact ⟨.inr (.inl ⟨rfl, hmech⟩), fun h => mechBossGoal_ne_finalBossGoal h.bosses⟩
    · refine ⟨.inr (.inr ⟨rfl, hfinal⟩), fun h => ?_⟩
      rw [h.mechBoss] at hmech
      cases hmech
  · rintro ⟨hnamed | hmech | ⟨rfl, hfinal⟩, hseen⟩
    · exact .inl hnamed
    · exact .inr (.inl hmech)
    · by_cases hnamed : entry.goalName? = some finalBossGoal
      · exact .inl hnamed
      · refine .inr (.inr ⟨rfl, hfinal, ?_⟩)
        rw [← Bool.not_eq_true]
        exact fun hmech => hseen ⟨rfl, hmech, hfinal, hnamed⟩

end Entry

namespace Table

variable {table : Table}

/-- The locations of a goal of a compiled table are the entries that belong to it by their
flags. -/
theorem mem_locations_of_compile {sheet : RuleSheet} {rewards : RewardSheet}
    (hcompile : compile sheet rewards = .ok table) {goal : Goal} (hgoal : goal ∈ table.goals)
    {location : String} :
    location ∈ goal.locations ↔
      ∃ entry ∈ table.entries, entry.belongsTo goal.name = true ∧ entry.name = location := by
  obtain ⟨blocks, -, rfl, -⟩ := compile_spec hcompile
  obtain ⟨marker, -, rfl⟩ := List.mem_map.mp hgoal
  simp only [GoalMarker.goal, NameSet.mem_ofList, List.mem_map, List.mem_filter, and_assoc]

/-- The locations of a goal of a compiled table are the entries that contribute to it, except those
that are overlooked.  So they are all that contribute exactly if none of them is overlooked. -/
theorem locations_of_compile {sheet : RuleSheet} {rewards : RewardSheet}
    (hcompile : compile sheet rewards = .ok table) {goal : Goal} (hgoal : goal ∈ table.goals) :
    (∀ location, location ∈ goal.locations ↔ ∃ entry ∈ table.entries, entry.name = location ∧
        entry.Contributes goal.name ∧ ¬entry.Overlooked goal.name) ∧
      ((∀ location, location ∈ goal.locations ↔
          ∃ entry ∈ table.entries, entry.name = location ∧ entry.Contributes goal.name) ↔
        ∀ entry ∈ table.entries, ¬entry.Overlooked goal.name) := by
  have hlocations : ∀ location, location ∈ goal.locations ↔ ∃ entry ∈ table.entries,
      entry.name = location ∧ entry.Contributes goal.name ∧ ¬entry.Overlooked goal.name := by
    intro location
    rw [mem_locations_of_compile hcompile hgoal]
    simp only [Entry.belongsTo_iff, and_comm]
  refine ⟨hlocations, fun hall entry hentry hoverlooked => ?_, fun hnone location => ?_⟩
  · have hcontributes : entry.Contributes goal.name := by
      rw [hoverlooked.bosses]
      exact .finalBoss hoverlooked.finalBoss
    obtain ⟨other, hother, hname, -, hseen⟩ :=
      (hlocations entry.name).mp ((hall entry.name).mpr ⟨entry, hentry, rfl, hcontributes⟩)
    -- the location of this name is the entry itself
    have hnodup := (sound_of_compile hcompile).names
    rw [List.inj_on_of_nodup_map hnodup hother hentry hname] at hseen
    exact hseen hoverlooked
  · rw [hlocations location]
    constructor
    · rintro ⟨entry, hentry, hname, hcontributes, -⟩
      exact ⟨entry, hentry, hname, hcontributes⟩
    · rintro ⟨entry, hentry, hname, hcontributes⟩
      exact ⟨entry, hentry, hname, hcontributes, hnone entry hentry⟩

/-- Two bosses, each of one kind, and the goals of their kinds. -/
def skySheet : RuleSheet where
  rules := [
    { name := "Twins", flags := .ofList [(.location, none), (.mechBoss, none)], line := 1 },
    { name := "Yharon", flags := .ofList [(.location, none), (.finalBoss, none)], line := 2 }]
  goals := [⟨mechBossGoal, 1, 3⟩, ⟨finalBossGoal, 2, 4⟩]

/-- The table of the two bosses. -/
def skyTable : Table where
  entries := [
    { name := "Twins", flags := .ofList [(.location, none), (.mechBoss, none)],
      tree := .group true none [], itemName := none, line := 1, copy := none },
    { name := "Yharon", flags := .ofList [(.location, none), (.finalBoss, none)],
      tree := .group true none [], itemName := none, line := 2, copy := none }]
  goals := [⟨mechBossGoal, 1, .ofList ["Twins"]⟩, ⟨finalBossGoal, 2, .ofList ["Yharon"]⟩]
  labels := []
  rewards := []
  capabilities := { mechBosses := [0], finalBosses := [1] }

/-- No boss is of both kinds, so the goal of final bosses collects all that are flagged so. -/
theorem locations_of_compile_skySheet : ∃ goal ∈ skyTable.goals,
    compile skySheet {} = .ok skyTable ∧ goal.name = finalBossGoal ∧
      goal.locations.names = ["Yharon"] ∧
      ∀ location, location ∈ goal.locations ↔
        ∃ entry ∈ skyTable.entries, entry.name = location ∧ entry.Contributes goal.name := by
  have hcompile : compile skySheet {} = .ok skyTable := rfl
  have hgoal : (⟨finalBossGoal, 2, .ofList ["Yharon"]⟩ : Goal) ∈ skyTable.goals := by
    simp [skyTable]
  have hkinds : ∀ entry ∈ skyTable.entries,
      ¬(entry.flags.contains .mechBoss && entry.flags.contains .finalBoss) = true := by
    decide
  refine ⟨_, hgoal, hcompile, rfl, rfl, (locations_of_compile hcompile hgoal).2.mpr ?_⟩
  intro entry hentry h
  exact hkinds entry hentry (Bool.and_eq_true_iff.mpr ⟨h.mechBoss, h.finalBoss⟩)

/-- A boss that is flagged as one of both kinds, and the goals of these. -/
def doubleSheet : RuleSheet where
  rules := [
    { name := "Exo", flags := .ofList [(.location, none), (.mechBoss, none), (.finalBoss, none)],
      line := 1 }]
  goals := [⟨mechBossGoal, 1, 2⟩, ⟨finalBossGoal, 1, 3⟩]

/-- The goal of final bosses misses the boss of both kinds. -/
theorem locations_of_compile_fails : ∃ table goal entry,
    compile doubleSheet {} = .ok table ∧ goal ∈ table.goals ∧ goal.name = finalBossGoal ∧
      entry ∈ table.entries ∧ entry.name = "Exo" ∧ entry.flags.contains .finalBoss = true ∧
      goal.locations.names = [] := by
  refine ⟨_, ⟨finalBossGoal, 1, ∅⟩, _, rfl, ?_, rfl, List.mem_cons_self, rfl, rfl, rfl⟩
  exact List.mem_cons_of_mem _ (List.mem_singleton_self _)

end Table

end Reachability
