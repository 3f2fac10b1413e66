import Reachability.Cache.Accept
import Reachability.Proofs.Cache.Wire
import Reachability.Proofs.Condition

/-!
# Cache — a payload is read back

Every part of a payload is written by a faithful wire.  Only numbers that are indices or counts
have to be small enough, and trees are read within the budget of their own bytes.
-/

namespace Reachability.Cache.Wire

open Condition

theorem faithful_operator : operator.Faithful fun _ => True := by
  refine ⟨fun o => ?_, fun {o} _ _ rest => ?_⟩
  · cases o <;> decide
  · cases o <;> rfl

theorem faithful_argument : argument.Faithful fun _ => True := by
  refine ⟨fun a => ?_, fun {a} _ hlength rest => ?_⟩
  · cases a <;> exact Nat.succ_pos _
  · cases a with
    | text t => exact faithful_text.read_alternative Argument.text trivial hlength rest
    | number n => exact faithful_word.read_alternative Argument.number trivial hlength rest

theorem faithful_flagArgument : flagArgument.Faithful fun _ => True := by
  refine ⟨fun o => ?_, fun {o} _ hlength rest => ?_⟩
  · rcases o with _ | _ | _ <;> exact Nat.succ_pos _
  · rcases o with _ | t | n
    · rfl
    · exact faithful_text.read_alternative (some ∘ Argument.text) trivial hlength rest
    · exact faithful_word.read_alternative (some ∘ Argument.number) trivial hlength rest

/-! ### Trees -/

theorem writeTrees_eq_flatMap (trees : List StoredTree) :
    writeTrees trees = trees.flatMap writeTree := by
  induction trees with
  | nil => rfl
  | cons c rest ih => rw [writeTrees, ih, List.flatMap_cons]

theorem length_writeTree_pos (t : StoredTree) : 0 < (writeTree t).length := by
  cases t with
  | item sign | location sign | call sign | group sign =>
    cases sign <;> exact Nat.succ_pos _

/-- A budget of at least the bytes of a tree has a byte to spend. -/
theorem exists_budget {t : StoredTree} {budget : List UInt8}
    (h : (writeTree t).length ≤ budget.length) : ∃ b rest, budget = b :: rest := by
  cases budget with
  | nil => exact absurd (length_writeTree_pos t) (Nat.not_lt.mpr h)
  | cons b rest => exact ⟨b, rest, rfl⟩

/-- A tree is read back within a budget of as many bytes as it takes up. -/
theorem readTree_writeTree {t : StoredTree} (href : ∀ i ∈ t.references, i < 2 ^ 64)
    (hlength : (writeTree t).length < 2 ^ 64) {budget : List UInt8}
    (hbudget : (writeTree t).length ≤ budget.length) (rest : List UInt8) :
    readTree budget (writeTree t ++ rest) = some (t, rest) := by
  induction t using Condition.induct generalizing budget rest with
  | item sign target quantity =>
    obtain ⟨_, budget, rfl⟩ := exists_budget hbudget
    simp only [writeTree, List.length_append] at hlength
    simp only [writeTree, List.append_assoc, readTree, bind, Option.bind,
      faithful_truth.read_write (a := sign) trivial (by omega),
      faithful_tag.read_write (a := 0) (by decide) (by decide),
      faithful_count.read_write (href target List.mem_cons_self) (by omega),
      faithful_word.read_write (a := quantity) trivial (by omega)]
    rfl
  | location sign target =>
    obtain ⟨_, budget, rfl⟩ := exists_budget hbudget
    simp only [writeTree, List.length_append] at hlength
    simp only [writeTree, List.append_assoc, readTree, bind, Option.bind,
      faithful_truth.read_write (a := sign) trivial (by omega),
      faithful_tag.read_write (a := 1) (by decide) (by decide),
      faithful_count.read_write (href target List.mem_cons_self) (by omega)]
    rfl
  | call sign function a =>
    obtain ⟨_, budget, rfl⟩ := exists_budget hbudget
    simp only [writeTree, List.length_append] at hlength
    simp only [writeTree, List.append_assoc, readTree, bind, Option.bind,
      faithful_truth.read_write (a := sign) trivial (by omega),
      faithful_tag.read_write (a := 2) (by decide) (by decide),
      faithful_text.read_write (a := function) trivial (by omega),
      faithful_argument.option.read_write (a := a) (fun _ _ => trivial) (by omega)]
    rfl
  | group sign o members ih =>
    obtain ⟨_, budget, rfl⟩ := exists_budget hbudget
    simp only [writeTree, writeTrees_eq_flatMap, List.length_append] at hlength hbudget
    have hcount := length_le_length_flatMap length_writeTree_pos members
    have hsign := faithful_truth.nonempty sign
    -- each member takes up less than the group, which spends at least a byte on its sign
    have hmember : ∀ c ∈ members, ∀ rest,
        readTree budget (writeTree c ++ rest) = some (c, rest) := fun c hc rest => by
      have hle : (writeTree c).length ≤ (members.flatMap writeTree).length := length_write_le hc
      refine ih c hc (fun i hi => href i (mem_references_group.mpr ⟨c, hc, hi⟩)) ?_ ?_ rest
      · omega
      · rw [List.length_cons] at hbudget
        omega
    simp only [writeTree, writeTrees_eq_flatMap, List.append_assoc, readTree, bind, Option.bind,
      faithful_truth.read_write (a := sign) trivial (by omega),
      faithful_tag.read_write (a := 3) (by decide) (by decide),
      faithful_operator.option.read_write (a := o) (fun _ _ => trivial) (by omega),
      faithful_count.read_write (a := members.length) (by omega) (by omega),
      readMany_flatMap hmember]
    rfl

theorem faithful_tree : tree.Faithful fun t => ∀ i ∈ t.references, i < 2 ^ 64 :=
  ⟨length_writeTree_pos, fun href hlength rest =>
    readTree_writeTree href hlength (List.length_append ▸ Nat.le_add_right _ _) rest⟩

/-! ### Tables -/

theorem faithful_rule : rule.Faithful fun r => ∀ i ∈ r.tree.references, i < 2 ^ 64 :=
  (Faithful.via (faithful_text.pair <| (faithful_text.pair faithful_flagArgument).list.pair <|
    faithful_tree.pair <| faithful_text.option.pair <|
    faithful_word.pair faithful_shortWord.option) fun _ => rfl).mono
    fun _ h => by simpa using h

theorem faithful_goal : goal.Faithful fun g => g.stop < 2 ^ 64 :=
  (Faithful.via (faithful_text.pair <| faithful_count.pair faithful_text.list) fun _ => rfl).mono
    fun _ h => by simpa using h

theorem faithful_label : label.Faithful fun _ => True :=
  (Faithful.via (faithful_text.pair faithful_text.list) fun _ => rfl).mono fun _ _ => by simp

theorem faithful_reward : reward.Faithful fun _ => True :=
  (Faithful.via (faithful_text.pair <| faithful_text.pair faithful_word) fun _ => rfl).mono
    fun _ _ => by simp

theorem faithful_metadata :
    metadata.Faithful fun m => m.rules < 2 ^ 64 ∧ m.goals < 2 ^ 64 ∧ m.rewards < 2 ^ 64 :=
  (Faithful.via (faithful_count.pair <| faithful_count.pair <| faithful_count.pair
    (faithful_raw (by decide)).option) fun _ => rfl).mono fun _ h => by simpa using h

theorem faithful_valued : valued.Faithful fun gear => ∀ i ∈ gear.map Prod.fst, i < 2 ^ 64 :=
  (faithful_count.pair faithful_word).list.mono fun _ h a ha =>
    ⟨h a.1 (List.mem_map_of_mem ha), trivial⟩

/-- The wire of capabilities reads back indices that are small enough. -/
theorem faithful_capabilities :
    capabilities.Faithful fun c => ∀ i ∈ capabilityIndices c, i < 2 ^ 64 := by
  refine (Faithful.via (faithful_count.list.pair <| faithful_valued.pair <|
    faithful_valued.pair <| faithful_valued.pair <| faithful_valued.pair <|
    faithful_valued.pair <| faithful_count.list.pair <| faithful_count.list.pair <|
    faithful_valued.pair faithful_valued) fun _ => rfl).mono fun c h => ?_
  simp only [capabilityIndices, List.map_append, List.mem_append, or_imp, forall_and] at h
  obtain ⟨⟨⟨hnpcs, hmech⟩, hfinal⟩, ⟨⟨⟨⟨⟨hpickaxes, hhammers⟩, hweapons⟩, harmor⟩,
    haccessories⟩, harmorMinions⟩, haccessoryMinions⟩ := h
  exact ⟨hnpcs, hpickaxes, hhammers, hweapons, harmor, haccessories, hmech, hfinal,
    harmorMinions, haccessoryMinions⟩

/-- A payload is small enough if its counts, its goals' ends and its indices are. -/
structure Small (p : Payload) : Prop where
  metadata : p.metadata.rules < 2 ^ 64 ∧ p.metadata.goals < 2 ^ 64 ∧ p.metadata.rewards < 2 ^ 64
  references : ∀ r ∈ p.rules, ∀ i ∈ r.tree.references, i < 2 ^ 64
  stops : ∀ g ∈ p.goals, g.stop < 2 ^ 64
  capabilities : ∀ i ∈ capabilityIndices p.capabilities, i < 2 ^ 64

theorem faithful_payload : payload.Faithful Small :=
  (Faithful.via (faithful_metadata.pair <| faithful_rule.list.pair <| faithful_goal.list.pair <|
    faithful_label.list.pair <| faithful_reward.list.pair faithful_capabilities) fun _ => rfl).mono
    fun _ h => ⟨h.metadata, h.references, h.stops, fun _ _ => trivial, fun _ _ => trivial,
      h.capabilities⟩

/-- A payload takes up at least a byte for each rule, goal and reward. -/
theorem length_le_length_payload (p : Payload) :
    p.rules.length ≤ (payload.write p).length ∧ p.goals.length ≤ (payload.write p).length ∧
      p.rewards.length ≤ (payload.write p).length := by
  have hrules := length_le_length_flatMap faithful_rule.nonempty p.rules
  have hgoals := length_le_length_flatMap faithful_goal.nonempty p.goals
  have hrewards := length_le_length_flatMap faithful_reward.nonempty p.rewards
  simp only [payload, Wire.via, Wire.pair, Wire.list, List.length_append]
  omega

end Reachability.Cache.Wire
