import Reachability.Proofs.Cache.Store
import Reachability.Proofs.Table.Accepted

/-!
# Table — looking up names

The listings of a table and its look-ups are inverse to each other where names differ.  Names of
rules, goals and labels differ in every table (`Table.LooksUp`).  So do names of rewards in compiled
tables, where no item name is claimed twice, but a stored table may repeat them, and then the last
reward of a name is found (`Table.lookups_of_made`).
-/

namespace Reachability

/-- Where keys differ, what is found under the key of a member is the member. -/
theorem find?_key_eq_some {α : Type} {key : α → String} {as : List α}
    (h : (as.map key).Nodup) {a : α} (ha : a ∈ as) :
    as.find? (fun b => key b == key a) = some a := by
  induction as with
  | nil => cases ha
  | cons b rest ih =>
    rw [List.map_cons, List.nodup_cons] at h
    rcases List.mem_cons.mp ha with rfl | ha
    · simp
    · have hne : key b ≠ key a := by
        intro heq
        exact h.1 (heq ▸ List.mem_map_of_mem ha)
      rw [List.find?_cons_of_neg (by simpa using hne)]
      exact ih h.2 ha

namespace Table

variable {table : Table}

/-- What is listed is found under its name, and only there. -/
structure LooksUp (table : Table) : Prop where
  rules : ∀ i entry, table.entries[i]? = some entry →
    table.indexOf? entry.name = some i ∧ table.entry? entry.name = some entry
  goals : ∀ goal ∈ table.goals, table.goal? goal.name = some goal
  labels : ∀ label ∈ table.labels, table.label? label.name = some label
  ruleNames : table.names.Nodup
  goalNames : (table.goals.map Goal.name).Nodup
  labelNames : (table.labels.map Label.name).Nodup

theorem Sound.looksUp (h : table.Sound) : table.LooksUp := by
  have hgoals : (table.goals.map Goal.name).Nodup := by
    simpa [Function.comp_def] using (goalsFit_iff.mp h.goals).1.1
  have hlabels : (table.labels.map Label.name).Nodup := (labelsFit_iff.mp h.labels).1.1
  constructor
  case rules =>
    intro i entry hentry
    exact ⟨h.indexOf?_name hentry,
      h.entry?_eq_some_iff.mpr ⟨List.mem_of_getElem? hentry, rfl⟩⟩
  case goals => exact fun goal hgoal => find?_key_eq_some hgoals hgoal
  case labels => exact fun label hlabel => find?_key_eq_some hlabels hlabel
  case ruleNames => exact h.names
  case goalNames => exact hgoals
  case labelNames => exact hlabels

/-- Of several rewards with one name the last is found. -/
theorem exists_reward?_eq_some {reward : Reward} (h : reward ∈ table.rewards) :
    ∃ before found after, table.rewards = before ++ found :: after ∧ found.name = reward.name ∧
      (∀ other ∈ after, other.name ≠ reward.name) ∧ table.reward? reward.name = some found := by
  have hsome : (table.reward? reward.name).isSome = true := by
    rw [reward?, List.find?_isSome]
    exact ⟨reward, List.mem_reverse.mpr h, beq_self_eq_true _⟩
  obtain ⟨found, hfound⟩ := Option.isSome_iff_exists.mp hsome
  obtain ⟨hname, after, before, hreverse, hafter⟩ := List.find?_eq_some_iff_append.mp hfound
  refine ⟨before.reverse, found, after.reverse, ?_, eq_of_beq hname, ?_, hfound⟩
  · rw [← List.reverse_reverse table.rewards, hreverse]
    simp
  · intro other hother
    simpa using hafter other (List.mem_reverse.mp hother)

/-- Where the names of rewards differ, a reward is found under its name. -/
theorem reward?_eq_some {reward : Reward} (hnodup : (table.rewards.map Reward.name).Nodup)
    (h : reward ∈ table.rewards) : table.reward? reward.name = some reward := by
  obtain ⟨before, found, after, hrewards, hname, -, hfound⟩ := exists_reward?_eq_some h
  have hmem : found ∈ table.rewards := by
    rw [hrewards]
    simp
  rw [hfound, List.inj_on_of_nodup_map hnodup hmem h hname]

/-- No two rewards of a compiled table have the same name. -/
theorem nodup_rewards_of_compile {sheet : RuleSheet} {rewards : RewardSheet}
    (hcompile : compile sheet rewards = .ok table) : (table.rewards.map Reward.name).Nodup := by
  have hitems := nodup_itemNames hcompile
  obtain ⟨blocks, -, rfl, -⟩ := compile_spec hcompile
  exact (List.nodup_append.mp hitems).2.1

/-- Every rule, goal and label of a table is found under its name, and no two of a kind have one
name.  Under the name of a reward the last one of this name is found: the reward itself, if the names
of rewards differ, as they do in compiled tables. -/
theorem lookups_of_made (hmade : table.Made) :
    table.LooksUp ∧
      (∀ reward ∈ table.rewards, ∃ before found after,
        table.rewards = before ++ found :: after ∧ found.name = reward.name ∧
        (∀ other ∈ after, other.name ≠ reward.name) ∧
        table.reward? reward.name = some found) ∧
      ((table.rewards.map Reward.name).Nodup →
        ∀ reward ∈ table.rewards, table.reward? reward.name = some reward) ∧
      ((∃ sheet rewards, compile sheet rewards = .ok table) →
        (table.rewards.map Reward.name).Nodup) := by
  refine ⟨hmade.sound.looksUp, fun reward hreward => exists_reward?_eq_some hreward,
    fun hnodup reward hreward => reward?_eq_some hnodup hreward, ?_⟩
  rintro ⟨sheet, rewards, hcompile⟩
  exact nodup_rewards_of_compile hcompile

/-- A rule and the goal are found under their names. -/
theorem lookups_of_made_torchTable :
    torchTable.indexOf? "Cave" = some 1 ∧ torchTable.goal? "night" = some ⟨"night", 4, ∅⟩ := by
  obtain ⟨hlooks, -⟩ := lookups_of_made made_torchTable
  exact ⟨(hlooks.rules 1 _ rfl).1, hlooks.goals _ List.mem_cons_self⟩

/-- A table whose two rewards have one name and differ in their flags. -/
def echoTable : Table where
  entries := []
  goals := []
  labels := [⟨"filler", ["Reward: Coin"]⟩]
  rewards := [⟨"Reward: Coin", "Common", 1⟩, ⟨"Reward: Coin", "Calamity", 2⟩]
  capabilities := {}

theorem sound_echoTable : echoTable.Sound := by
  constructor
  case names => exact List.nodup_nil
  case goals => exact .nil
  case labels => exact .cons (by simp) (by simp [echoTable]) .nil
  case descents => rfl
  all_goals simp [echoTable, Cache.capabilityIndices]

open Cache in
/-- Bytes that repeat the name of a reward are accepted, and the first of the two rewards is not
found under its name. -/
theorem lookups_of_made_fails : ∃ blob table reward,
    ofBytes blob = .ok table ∧ reward ∈ table.rewards ∧
      table.reward? reward.name ≠ some reward := by
  have hsize : (Wire.payload.write (echoTable.payload none)).length < 2 ^ 32 := by
    decide +kernel
  have hread := readPayload_sealed (small_payload sound_echoTable hsize) hsize
  have haccept := (accept_payload sound_echoTable none).1 (by simp [Joined, echoTable])
  refine ⟨echoTable.toBytes none, echoTable, ⟨"Reward: Coin", "Common", 1⟩,
    ofBytes_eq_ok_iff.mpr ⟨_, hread, haccept⟩, List.mem_cons_self, ?_⟩
  decide

end Table

end Reachability
