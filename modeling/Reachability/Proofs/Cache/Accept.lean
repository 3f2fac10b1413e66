import Reachability.Cache.Accept
import Reachability.Proofs.Flags
import Reachability.Proofs.Table.Sound

/-!
# Cache — what is accepted

A payload is accepted only as a sound table whose groups are joined (`sound_of_accept`), and the
payload of a sound table is accepted as this table exactly if its groups are joined
(`accept_payload`).
-/

namespace Reachability.Cache

/-! ### Checks -/

theorem checkCount_eq_ok_iff {flaw : Nat → Nat → Flaw} {stated actual : Nat} :
    checkCount flaw stated actual = .ok () ↔ stated = actual := by
  unfold checkCount
  split <;> simp_all

theorem checkBounds_eq_ok_iff {flaw : Nat → Nat → Flaw} {count : Nat} {indices : List Nat} :
    checkBounds flaw count indices = .ok () ↔ ∀ index ∈ indices, index < count := by
  unfold checkBounds
  split
  · next index hindex =>
    have hle := List.find?_some hindex
    simp only [reduceCtorEq, false_iff]
    intro h
    have := h index (List.mem_of_find?_eq_some hindex)
    simp at hle
    omega
  · next hnone =>
    rw [List.find?_eq_none] at hnone
    simpa using hnone

theorem checkGoals_eq_ok_iff {count previous : Nat} {seen : List String}
    {goals : List StoredGoal} :
    checkGoals count seen previous goals = .ok () ↔
      GoalsFit count seen previous (goals.map fun goal => (goal.name, goal.stop)) := by
  induction goals generalizing seen previous with
  | nil => exact ⟨fun _ => .nil, fun _ => rfl⟩
  | cons goal rest ih =>
    unfold checkGoals
    constructor
    · intro h
      split at h
      · cases h
      · next hnew =>
        split at h
        · cases h
        · next hrange =>
          simp only [Bool.or_eq_true, decide_eq_true_eq, not_or, Nat.not_lt] at hrange
          rw [List.contains_iff_mem] at hnew
          exact .cons hnew hrange.2 hrange.1 (ih.mp h)
    · rintro (_ | ⟨hnew, hprevious, hcount, hrest⟩)
      have hrange : ¬(decide (count < goal.stop) || decide (goal.stop < previous)) = true := by
        simp [hprevious, hcount]
      rw [← List.contains_iff_mem] at hnew
      rw [if_neg hnew, if_neg hrange]
      exact ih.mpr hrest

theorem checkLabels_eq_ok_iff {declared seen : List String} {labels : List Label} :
    checkLabels declared seen labels = .ok () ↔ LabelsFit declared seen labels := by
  induction labels generalizing seen with
  | nil => exact ⟨fun _ => .nil, fun _ => rfl⟩
  | cons label rest ih =>
    unfold checkLabels
    constructor
    · intro h
      split at h
      · cases h
      · next hnew =>
        split at h
        · cases h
        · next hrewards =>
          rw [List.contains_iff_mem] at hnew
          refine .cons hnew (fun reward hreward => ?_) (ih.mp h)
          simpa using List.find?_eq_none.mp hrewards reward hreward
    · rintro (_ | ⟨hnew, hrewards, hrest⟩)
      have hnone : label.rewards.find? (!declared.contains ·) = none := by
        rw [List.find?_eq_none]
        simpa using hrewards
      rw [← List.contains_iff_mem] at hnew
      rw [if_neg hnew, hnone]
      exact ih.mpr hrest

theorem checkLocations_eq_ok_iff {names : List String} {goals : List Goal} :
    checkLocations names goals = .ok () ↔
      ∀ goal ∈ goals, ∀ location ∈ goal.locations, location ∈ names := by
  unfold checkLocations
  split
  · next goal location hsome =>
    obtain ⟨g, hg, hfind⟩ := List.exists_of_findSome?_eq_some hsome
    obtain ⟨l, hl, -⟩ := Option.map_eq_some_iff.mp hfind
    have hnot := List.find?_some hl
    simp only [reduceCtorEq, false_iff]
    intro h
    have := h g hg l (List.mem_of_find?_eq_some hl)
    simp_all
  · next hnone =>
    simp only [true_iff]
    intro goal hgoal location hlocation
    have := List.findSome?_eq_none_iff.mp hnone goal hgoal
    rw [Option.map_eq_none_iff, List.find?_eq_none] at this
    simpa using this location hlocation

theorem checkRuleNames_eq_ok_iff {names : List String} :
    checkRuleNames names = .ok () ↔ names.Nodup := by
  have h : firstRepeat? id [] names = none ↔ names.Nodup := by
    simpa using @firstRepeat?_eq_none_iff _ id [] names
  rw [← h, checkRuleNames]
  cases firstRepeat? id [] names <;> simp

theorem checkDescents_eq_ok_iff {entries : List Entry} {capabilities : Capabilities} :
    checkDescents entries capabilities = .ok () ↔ cyclicNames? entries capabilities = none := by
  unfold checkDescents Reachability.checkDescents
  cases cyclicNames? entries capabilities <;> simp

/-! ### Flags and trees -/

/-- The names of flags are accepted as these flags. -/
theorem acceptFlags_named {rule : String} {flags before : Flags}
    {named : List (String × Option Argument)} (h : flags.named = before.named ++ named) :
    acceptFlags rule before named = .ok flags := by
  induction named generalizing before with
  | nil =>
    rw [List.append_nil] at h
    rw [Flags.named_injective h]
    rfl
  | cons entry rest ih =>
    obtain ⟨name, argument⟩ := entry
    have hmem : (name, argument) ∈ flags.named := by simp [h]
    obtain ⟨⟨flag, _⟩, -, hflag⟩ := List.mem_map.mp hmem
    obtain ⟨rfl, rfl⟩ := Prod.mk.inj hflag
    -- `flags` has this flag behind those of `before`, so it is none of them
    have hnew : flag.name ∉ before.named.map Prod.fst := by
      have hnodup := flags.nodup_named
      rw [h, List.map_append, List.nodup_append] at hnodup
      exact fun hmem => hnodup.2.2 _ hmem _ List.mem_cons_self rfl
    have hcontains : ¬before.contains flag = true := mt Flags.contains_iff_named.mp hnew
    unfold acceptFlags
    rw [Flag.ofName?_name]
    dsimp only
    rw [if_neg hcontains]
    refine ih ?_
    rw [h, Flags.named_insert hnew, List.append_assoc]
    rfl

theorem acceptTrees_eq_mapM (trees : List StoredTree) :
    acceptTrees trees = trees.mapM acceptTree := by
  induction trees with
  | nil => rfl
  | cons c rest ih => rw [acceptTrees, ih, List.mapM_cons]

theorem namedAll_eq_map (trees : List Tree) :
    Condition.namedAll trees = trees.map Condition.named := by
  induction trees with
  | nil => rfl
  | cons c rest ih => rw [Condition.namedAll, ih, List.map_cons]

/-- Spelling out functions changes no reference. -/
theorem references_named (tree : Tree) : tree.named.references = tree.references := by
  induction tree using Condition.induct with
  | item | location | call => rfl
  | group sign operator members ih =>
    simp only [Condition.named, Condition.references, Condition.referencesAll_eq_flatMap,
      namedAll_eq_map, List.flatMap_map]
    exact List.flatMap_congr ih

/-- An accepted tree is joined, its calls suit their functions, and it only refers to what the
stored tree refers to. -/
structure Accepts (stored : StoredTree) (tree : Tree) : Prop where
  references : ∀ index ∈ tree.references, index ∈ stored.references
  calls : tree.Suited
  joined : tree.Joined

theorem accepts_of_acceptTree {stored : StoredTree} {tree : Tree}
    (h : acceptTree stored = .ok tree) : Accepts stored tree := by
  induction stored using Condition.induct generalizing tree with
  | item sign target quantity =>
    cases h
    exact ⟨fun _ h => h, Condition.suited_item, Condition.joined_item⟩
  | location sign target =>
    cases h
    exact ⟨fun _ h => h, Condition.suited_location, Condition.joined_location⟩
  | call sign name argument =>
    obtain ⟨function, hfunction, h⟩ := Except.bind_eq_ok_iff.mp h
    cases h
    refine ⟨nofun, Condition.suited_call.mpr ?_, Condition.joined_call⟩
    unfold acceptCall at hfunction
    split at hfunction
    · cases hfunction
    · split at hfunction
      · next hsuits =>
        cases hfunction
        exact hsuits
      · cases hfunction
  | group sign operator members ih =>
    unfold acceptTree at h
    split at h
    · cases h
    · next hoperator =>
      rw [acceptTrees_eq_mapM] at h
      obtain ⟨trees, htrees, h⟩ := Except.bind_eq_ok_iff.mp h
      cases h
      have hmember : ∀ t ∈ trees, ∃ c ∈ members, Accepts c t := fun t ht => by
        obtain ⟨c, hc, h⟩ := Except.exists_of_mapM_eq_ok htrees ht
        exact ⟨c, hc, ih c hc h⟩
      refine ⟨fun i hi => ?_, Condition.suited_group.mpr fun t ht => ?_,
        Condition.joined_group.mpr ⟨?_, fun t ht => ?_⟩⟩
      · obtain ⟨t, ht, hi⟩ := Condition.mem_references_group.mp hi
        obtain ⟨c, hc, haccepts⟩ := hmember t ht
        exact Condition.mem_references_group.mpr ⟨c, hc, haccepts.references i hi⟩
      · obtain ⟨c, -, haccepts⟩ := hmember t ht
        exact haccepts.calls
      · rintro rfl
        rw [Except.length_of_mapM_eq_ok htrees]
        simpa using hoperator
      · obtain ⟨c, -, haccepts⟩ := hmember t ht
        exact haccepts.joined

/-- Why a tree is refused whose groups are not joined. -/
def Joinless (flaw : Flaw) : Prop := ∃ count, flaw = .joinlessGroup count

/-- A tree whose calls suit their functions is accepted if it is joined, and else refused for a
group without an operator. -/
theorem acceptTree_named {tree : Tree} (hcalls : tree.Suited) :
    (tree.Joined → acceptTree tree.named = .ok tree) ∧
      (¬tree.Joined → ∃ flaw, Joinless flaw ∧ acceptTree tree.named = .error flaw) := by
  induction tree using Condition.induct with
  | item => exact ⟨fun _ => rfl, fun h => absurd Condition.joined_item h⟩
  | location => exact ⟨fun _ => rfl, fun h => absurd Condition.joined_location h⟩
  | call sign function argument =>
    refine ⟨fun _ => ?_, fun h => absurd Condition.joined_call h⟩
    have hsuits := Condition.suited_call.mp hcalls
    simp only [Condition.named, acceptTree, acceptCall, Builtin.ofName?_name, hsuits, if_true]
    rfl
  | group sign operator members ih =>
    have hmembers : ∀ c ∈ members, _ := fun c hc => ih c hc (Condition.suited_group.mp hcalls c hc)
    rw [Condition.joined_group, Condition.named, namedAll_eq_map, acceptTree, List.length_map,
      acceptTrees_eq_mapM]
    by_cases hoperator : (operator.isNone && decide (1 < members.length)) = true
    · rw [if_pos hoperator]
      simp only [Bool.and_eq_true, Option.isNone_iff_eq_none, decide_eq_true_eq] at hoperator
      exact ⟨fun h => absurd (h.1 hoperator.1) (Nat.not_le.mpr hoperator.2),
        fun _ => ⟨_, ⟨_, rfl⟩, rfl⟩⟩
    · rw [if_neg hoperator]
      have hlength : operator = none → members.length ≤ 1 := by
        rintro rfl
        simpa using hoperator
      refine ⟨fun h => ?_, fun h => ?_⟩
      · rw [Except.mapM_map_eq_ok fun c hc => (hmembers c hc).1 (h.2 c hc)]
        rfl
      · -- some member is not joined, and the first such one is refused
        have hbad : ∃ c ∈ members, ¬c.Joined := by
          simpa using fun h' => h ⟨hlength, h'⟩
        obtain ⟨c, hc, hbad⟩ := hbad
        obtain ⟨flaw, -, hrefused⟩ := (hmembers c hc).2 hbad
        obtain ⟨flaw, hflaw, herror⟩ := Except.exists_error_of_mapM_map (P := Joinless)
          (fun d hd => (Classical.em d.Joined).imp (hmembers d hd).1 (hmembers d hd).2)
          ⟨c, hc, flaw, hrefused⟩
        exact ⟨flaw, hflaw, by rw [herror]; rfl⟩

/-! ### Rules and tables -/

theorem accepts_of_accept {rule : StoredRule} {entry : Entry} (h : rule.accept = .ok entry) :
    entry.name = rule.name ∧ Accepts rule.tree entry.tree := by
  obtain ⟨flags, -, h⟩ := Except.bind_eq_ok_iff.mp h
  obtain ⟨tree, htree, h⟩ := Except.bind_eq_ok_iff.mp h
  cases h
  exact ⟨rfl, accepts_of_acceptTree htree⟩

/-- A stored entry whose calls suit their functions is accepted if its tree is joined. -/
theorem accept_stored {entry : Entry} (hcalls : entry.tree.Suited) :
    (entry.tree.Joined → entry.stored.accept = .ok entry) ∧
      (¬entry.tree.Joined → ∃ flaw, Joinless flaw ∧ entry.stored.accept = .error flaw) := by
  have hflags : acceptFlags entry.stored.name ∅ entry.stored.flags = .ok entry.flags :=
    acceptFlags_named (List.nil_append _).symm
  have htree : entry.stored.tree = entry.tree.named := rfl
  obtain ⟨hjoined, hjoinless⟩ := acceptTree_named hcalls
  refine ⟨fun h => ?_, fun h => ?_⟩
  · rw [StoredRule.accept, hflags, htree, hjoined h]
    rfl
  · obtain ⟨flaw, hflaw, herror⟩ := hjoinless h
    refine ⟨flaw, hflaw, ?_⟩
    rw [StoredRule.accept, hflags, htree, herror]
    rfl

theorem accept_storedGoal (goal : Goal) : goal.stored.accept = goal := by
  simp only [StoredGoal.accept, Goal.stored, NameSet.ofList_names]

/-- What the checks of a payload as it is stored say. -/
structure Payload.Checked (payload : Payload) : Prop where
  rules : payload.metadata.rules = payload.rules.length
  goals : payload.metadata.goals = payload.goals.length
  rewards : payload.metadata.rewards = payload.rewards.length
  references : ∀ index ∈ payload.rules.flatMap (·.tree.references), index < payload.rules.length
  goalsFit : GoalsFit payload.rules.length [] 0
    (payload.goals.map fun goal => (goal.name, goal.stop))
  labelsFit : LabelsFit (payload.rewards.map Reward.name) [] payload.labels
  capabilities : ∀ index ∈ capabilityIndices payload.capabilities, index < payload.rules.length

theorem Payload.check_eq_ok_iff {payload : Payload} :
    payload.check = .ok () ↔ payload.Checked := by
  simp only [check, Except.seq_eq_ok_iff, checkCount_eq_ok_iff, checkBounds_eq_ok_iff,
    checkGoals_eq_ok_iff, checkLabels_eq_ok_iff]
  constructor
  · rintro ⟨h₁, h₂, h₃, h₄, h₅, h₆, h₇⟩
    exact ⟨h₁, h₂, h₃, h₄, h₅, h₆, h₇⟩
  · rintro ⟨h₁, h₂, h₃, h₄, h₅, h₆, h₇⟩
    exact ⟨h₁, h₂, h₃, h₄, h₅, h₆, h₇⟩

/-- A payload is accepted as the table of its rules and goals, once everything is checked. -/
theorem Payload.accept_eq_ok_iff {payload : Payload} {table : Table} :
    payload.accept = .ok table ↔
      payload.Checked ∧ payload.rules.mapM StoredRule.accept = .ok table.entries ∧
        table.names.Nodup ∧
        (∀ goal ∈ table.goals, ∀ location ∈ goal.locations, location ∈ table.names) ∧
        cyclicNames? table.entries table.capabilities = none ∧
        table.goals = payload.goals.map StoredGoal.accept ∧ table.labels = payload.labels ∧
        table.rewards = payload.rewards ∧ table.capabilities = payload.capabilities := by
  rw [← check_eq_ok_iff, accept, Except.seq_eq_ok_iff, and_congr_right_iff]
  intro _
  constructor
  · intro h
    obtain ⟨entries, hentries, h⟩ := Except.bind_eq_ok_iff.mp h
    obtain ⟨hnames, h⟩ := Except.seq_eq_ok_iff.mp h
    obtain ⟨hlocations, h⟩ := Except.seq_eq_ok_iff.mp h
    obtain ⟨hdescents, h⟩ := Except.seq_eq_ok_iff.mp h
    cases h
    exact ⟨hentries, checkRuleNames_eq_ok_iff.mp hnames, checkLocations_eq_ok_iff.mp hlocations,
      checkDescents_eq_ok_iff.mp hdescents, rfl, rfl, rfl, rfl⟩
  · obtain ⟨entries, goals, labels, rewards, capabilities⟩ := table
    rintro ⟨hentries, hnames, hlocations, hdescents, hgoals, hlabels, hrewards, hcapabilities⟩
    dsimp only at *
    subst hgoals hlabels hrewards hcapabilities
    rw [hentries]
    refine Except.seq_eq_ok_iff.mpr ⟨checkRuleNames_eq_ok_iff.mpr hnames,
      Except.seq_eq_ok_iff.mpr ⟨checkLocations_eq_ok_iff.mpr hlocations,
        Except.seq_eq_ok_iff.mpr ⟨checkDescents_eq_ok_iff.mpr hdescents, rfl⟩⟩⟩

section
variable {payload : Payload} {entries : List Entry} (hchecked : payload.Checked)
  (hentries : payload.rules.mapM StoredRule.accept = .ok entries)
include hentries

/-- Each entry is accepted from a stored rule. -/
theorem exists_accepts {entry : Entry} (hentry : entry ∈ entries) :
    ∃ rule ∈ payload.rules, Accepts rule.tree entry.tree := by
  obtain ⟨rule, hrule, h⟩ := Except.exists_of_mapM_eq_ok hentries hentry
  exact ⟨rule, hrule, (accepts_of_accept h).2⟩

include hchecked

/-- The entries of a checked payload refer to entries. -/
theorem references_lt_of_checked {entry : Entry} (hentry : entry ∈ entries) {index : Nat}
    (hindex : index ∈ entry.tree.references) : index < entries.length := by
  obtain ⟨rule, hrule, haccepts⟩ := exists_accepts hentries hentry
  rw [Except.length_of_mapM_eq_ok hentries]
  exact hchecked.references index
    (List.mem_flatMap.mpr ⟨rule, hrule, haccepts.references index hindex⟩)

/-- The capabilities of a checked payload name entries. -/
theorem capabilities_lt_of_checked {index : Nat}
    (hindex : index ∈ capabilityIndices payload.capabilities) : index < entries.length := by
  rw [Except.length_of_mapM_eq_ok hentries]
  exact hchecked.capabilities index hindex

end

/-- An accepted table is sound, and its groups are joined. -/
theorem sound_of_accept {payload : Payload} {table : Table} (h : payload.accept = .ok table) :
    table.Sound ∧ table.Joined := by
  obtain ⟨hchecked, hentries, hnames, hlocations, hdescents, hgoals, hlabels, hrewards,
    hcapabilities⟩ := Payload.accept_eq_ok_iff.mp h
  refine ⟨?_, fun entry hentry => ?_⟩
  · constructor
    case names => exact hnames
    case references =>
      exact fun entry hentry index hindex =>
        references_lt_of_checked hchecked hentries hentry hindex
    case calls =>
      intro entry hentry
      obtain ⟨rule, -, haccepts⟩ := exists_accepts hentries hentry
      exact haccepts.calls
    case goals =>
      rw [hgoals, Except.length_of_mapM_eq_ok hentries, List.map_map]
      exact hchecked.goalsFit
    case locations => exact hlocations
    case labels =>
      rw [hlabels, hrewards]
      exact hchecked.labelsFit
    case capabilities =>
      rw [hcapabilities]
      exact fun index hindex => capabilities_lt_of_checked hchecked hentries hindex
    case descents => exact hdescents
  · obtain ⟨rule, -, haccepts⟩ := exists_accepts hentries hentry
    exact haccepts.joined

/-- The payload of a sound table passes the checks of payloads. -/
theorem checked_payload {table : Table} (h : table.Sound) (source : Option Blake3.Digest) :
    (table.payload source).Checked := by
  constructor
  case rules => exact (List.length_map _).symm
  case goals => exact (List.length_map _).symm
  case rewards => rfl
  case references =>
    intro index hindex
    obtain ⟨rule, hrule, hindex⟩ := List.mem_flatMap.mp hindex
    obtain ⟨entry, hentry, rfl⟩ := List.mem_map.mp hrule
    rw [Entry.stored, references_named] at hindex
    simpa [Table.payload] using h.references entry hentry index hindex
  case goalsFit => simpa [Table.payload, Function.comp_def, Goal.stored] using h.goals
  case labelsFit => exact h.labels
  case capabilities => simpa [Table.payload] using h.capabilities

/-- The payload of a sound table is accepted as the table if its groups are joined, and else
refused for a group without an operator. -/
theorem accept_payload {table : Table} (h : table.Sound) (source : Option Blake3.Digest) :
    (table.Joined → (table.payload source).accept = .ok table) ∧
      (¬table.Joined → ∃ flaw, Joinless flaw ∧ (table.payload source).accept = .error flaw) := by
  have hchecked := checked_payload h source
  refine ⟨fun hjoined => ?_, fun hjoinless => ?_⟩
  · refine Payload.accept_eq_ok_iff.mpr ⟨hchecked, ?_, h.names, h.locations, h.descents, ?_, rfl,
      rfl, rfl⟩
    · exact Except.mapM_map_eq_ok fun entry hentry =>
        (accept_stored (h.calls entry hentry)).1 (hjoined entry hentry)
    · simp [Table.payload, Function.comp_def, accept_storedGoal]
  · have hbad : ∃ entry ∈ table.entries, ¬entry.tree.Joined := by
      simpa [Table.Joined] using hjoinless
    obtain ⟨entry, hentry, hbad⟩ := hbad
    have haccept : ∀ e ∈ table.entries, _ := fun e he => accept_stored (h.calls e he)
    obtain ⟨flaw, -, hrefused⟩ := (haccept entry hentry).2 hbad
    obtain ⟨flaw, hflaw, herror⟩ := Except.exists_error_of_mapM_map (P := Joinless)
      (fun e he => (Classical.em e.tree.Joined).imp (haccept e he).1 (haccept e he).2)
      ⟨entry, hentry, flaw, hrefused⟩
    refine ⟨flaw, hflaw, ?_⟩
    have hrules : (table.payload source).rules = table.entries.map Entry.stored := rfl
    rw [Payload.accept, Payload.check_eq_ok_iff.mpr hchecked, hrules, herror]
    rfl

end Reachability.Cache
