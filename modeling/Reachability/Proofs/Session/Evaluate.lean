import Reachability.Proofs.Cache.Store
import Reachability.Proofs.Sheet.Joined
import Reachability.Session.Evaluate

/-!
# Session — evaluation

Evaluating a tree enters the trees of other rules.  It enters only what `descents` lists
(`mem_descents_of_enters`), and those trees go down the order of a sound table, so no chain of
nested evaluations meets a rule twice and the number of rules bounds its depth.
-/

namespace Reachability

namespace Condition

theorem evaluateAll_eq_allM (meaning : Meaning) (cs : List Tree) :
    evaluateAll meaning cs = cs.allM (evaluate meaning) := by
  induction cs with
  | nil => rfl
  | cons c rest ih =>
    rw [evaluateAll, List.allM_cons, ih]

theorem evaluateAny_eq_anyM (meaning : Meaning) (cs : List Tree) :
    evaluateAny meaning cs = cs.anyM (evaluate meaning) := by
  induction cs with
  | nil => rfl
  | cons c rest ih =>
    rw [evaluateAny, List.anyM_cons, ih]

end Condition

namespace Session

variable {session : Session} {has : Holdings} {enter enter' : Nat → Except QueryError Bool}

/-! ### What is entered -/

/-- Evaluating a tree may enter the tree of an entry: that of a location it refers to, and for
`@gear_power` that of gear which is adequate. -/
inductive Enters (session : Session) : Tree → Nat → Prop
  | location (sign : Bool) (target : Nat) : Enters session (.location sign target) target
  | gear {sign : Bool} {argument : Option Argument} {n : UInt64} {gear : List (Nat × UInt64)}
      {group : Nat × UInt64} :
      session.options.requireOptimalGear = true → argument.bind Argument.number? = some n →
      gear ∈ session.table.capabilities.gearTables → group ∈ gear →
      session.isAdequate n group = .ok true →
      Enters session (.call sign .gearPower argument) group.1
  | member {sign : Bool} {operator : Option Operator} {members : List Tree} {c : Tree}
      {index : Nat} :
      c ∈ members → Enters session c index → Enters session (.group sign operator members) index

/-- What is entered is among the descents. -/
theorem mem_descents_of_enters {tree : Tree} {index : Nat} (h : session.Enters tree index) :
    index ∈ tree.descents session.table.capabilities.gear := by
  induction h with
  | location sign target => exact List.mem_singleton_self target
  | gear _ _ hgear hgroup _ =>
    rw [Condition.descents, if_pos rfl]
    exact List.mem_map_of_mem (List.mem_flatten_of_mem hgear hgroup)
  | member hc _ ih => exact Condition.mem_descents_group.mpr ⟨_, hc, ih⟩

theorem gearAdequate_congr {n : UInt64}
    (h : ∀ gear ∈ session.table.capabilities.gearTables, ∀ group ∈ gear,
      session.isAdequate n group = .ok true → enter group.1 = enter' group.1) :
    session.gearAdequate enter n = session.gearAdequate enter' n := by
  refine Except.allM_congr fun gear hgear => Except.anyM_congr fun group hgroup =>
    Except.bind_congr_of_ok fun adequate hadequate => ?_
  cases adequate with
  | true => exact h gear hgear group hgroup hadequate
  | false => rfl

/-- Evaluation asks about no entry but those it enters. -/
theorem evaluate_congr {tree : Tree}
    (h : ∀ index, session.Enters tree index → enter index = enter' index) :
    tree.evaluate (session.meaning has enter) = tree.evaluate (session.meaning has enter') := by
  induction tree using Condition.induct with
  | item => rfl
  | location sign target =>
    simp only [Condition.evaluate, meaning, h target (.location sign target)]
  | call sign function argument =>
    cases function with
    | gearPower =>
      -- gear is entered only if it is asked for and adequate
      simp only [Condition.evaluate, meaning, call]
      refine congrArg _ (Except.bind_congr_of_ok fun n hn => ?_)
      split
      · next hoptimal =>
        refine gearAdequate_congr fun gear hgear group hgroup hadequate =>
          h group.1 (.gear hoptimal ?_ hgear hgroup hadequate)
        unfold threshold at hn
        split at hn
        · next hnumber =>
          cases hn
          exact hnumber
        · cases hn
      · rfl
    | _ => rfl
  | group sign operator members ih =>
    have hmembers : ∀ c ∈ members, c.evaluate (session.meaning has enter) =
        c.evaluate (session.meaning has enter') :=
      fun c hc => ih c hc fun index hindex => h index (.member hc hindex)
    cases operator with
    | none =>
      rcases members with _ | ⟨c, _ | _⟩
      · rfl
      · simp only [Condition.evaluate, Condition.evaluateOnly, hmembers c List.mem_cons_self]
      · rfl
    | some operator =>
      cases operator with
      | and =>
        simp only [Condition.evaluate, Condition.evaluateAll_eq_allM, Except.allM_congr hmembers]
      | or =>
        simp only [Condition.evaluate, Condition.evaluateAny_eq_anyM, Except.anyM_congr hmembers]

/-! ### Why evaluation fails -/

variable {E : QueryError → Prop}

theorem entryAt_eq_ok {index : Nat} (h : index < session.table.entries.length) :
    session.entryAt index = .ok session.table.entries[index] := by
  rw [entryAt, List.getElem?_eq_getElem h]

theorem failsOnly_holds {index : Nat} (h : index < session.table.entries.length)
    (quantity : UInt64) : (session.holds has index quantity).FailsOnly E := by
  rw [holds, entryAt_eq_ok h]
  exact Except.failsOnly_ok _

theorem failsOnly_countHeld {indices : List Nat}
    (h : ∀ index ∈ indices, index < session.table.entries.length) :
    (session.countHeld has indices).FailsOnly E := by
  induction indices with
  | nil => exact Except.failsOnly_ok 0
  | cons index rest ih =>
    refine (failsOnly_holds (h index List.mem_cons_self) 1).bind fun held _ => ?_
    refine (ih fun i hi => h i (List.mem_cons_of_mem index hi)).bind fun count _ => ?_
    exact Except.failsOnly_ok _

theorem failsOnly_heldBonuses {bonuses : List (Nat × UInt64)}
    (h : ∀ index ∈ bonuses.map Prod.fst, index < session.table.entries.length) :
    (session.heldBonuses has bonuses).FailsOnly E := by
  induction bonuses with
  | nil => exact Except.failsOnly_ok []
  | cons bonus rest ih =>
    refine (failsOnly_holds (h bonus.1 List.mem_cons_self) 1).bind fun held _ => ?_
    refine (ih fun i hi => h i (List.mem_cons_of_mem bonus.1 hi)).bind fun bonuses _ => ?_
    exact Except.failsOnly_ok _

theorem failsOnly_holdsPower {n : UInt64} {tools : List (Nat × UInt64)}
    (h : ∀ index ∈ tools.map Prod.fst, index < session.table.entries.length) :
    (session.holdsPower has n tools).FailsOnly E := by
  refine Except.failsOnly_anyM fun tool htool => ?_
  dsimp only
  split
  · exact failsOnly_holds (h tool.1 (List.mem_map_of_mem htool)) 1
  · exact Except.failsOnly_ok false

theorem failsOnly_isAdequate {n : UInt64} {group : Nat × UInt64}
    (h : group.1 < session.table.entries.length) : (session.isAdequate n group).FailsOnly E := by
  unfold isAdequate
  split
  · exact Except.failsOnly_ok false
  · rw [entryAt_eq_ok h]
    exact Except.failsOnly_ok _

/-- A call that suits its function has the number that the function asks for. -/
theorem threshold_eq_ok {function : Builtin} {argument : Option Argument}
    (hnumber : function.takesNumber = true) (h : Condition.suits function argument = true) :
    ∃ n, argument.bind Argument.number? = some n ∧ threshold function argument = .ok n := by
  rw [Condition.suits, hnumber] at h
  obtain ⟨n, hn⟩ := Option.isSome_iff_exists.mp h
  exact ⟨n, hn, by rw [threshold, hn]⟩

theorem failsOnly_gearAdequate {n : UInt64}
    (hgear : ∀ index ∈ session.table.capabilities.gear, index < session.table.entries.length)
    (henter : ∀ index ∈ session.table.capabilities.gear, (enter index).FailsOnly E) :
    (session.gearAdequate enter n).FailsOnly E := by
  refine Except.failsOnly_allM fun gear hmem => Except.failsOnly_anyM fun group hgroup => ?_
  have hindex : group.1 ∈ session.table.capabilities.gear :=
    List.mem_map_of_mem (List.mem_flatten_of_mem hmem hgroup)
  refine (failsOnly_isAdequate (hgear _ hindex)).bind fun adequate _ => ?_
  cases adequate with
  | true => exact henter _ hindex
  | false => exact Except.failsOnly_ok false

/-- A group without an operator fails only where its only member does, or for having more. -/
theorem failsOnly_evaluate_unjoined {meaning : Meaning} {sign : Bool} {members : List Tree}
    (hmembers : ∀ c ∈ members, (c.evaluate meaning).FailsOnly E)
    (hbare : 1 < members.length → E (.ambiguousOperator members.length)) :
    ((Condition.group sign none members).evaluate meaning).FailsOnly E := by
  rcases members with _ | ⟨c, _ | ⟨d, rest⟩⟩
  · exact Except.failsOnly_ok _
  · exact (hmembers c List.mem_cons_self).map _
  · intro e he
    cases he
    exact hbare (Nat.one_lt_succ_succ rest.length)

section
variable (hcapabilities : ∀ index ∈ Cache.capabilityIndices session.table.capabilities,
  index < session.table.entries.length)
include hcapabilities

/-- A call that suits its function fails only where entering gear does. -/
theorem failsOnly_call {function : Builtin} {argument : Option Argument}
    (hsuits : Condition.suits function argument = true)
    (henter : function = .gearPower →
      ∀ index ∈ session.table.capabilities.gear, (enter index).FailsOnly E) :
    (session.call has enter function argument).FailsOnly E := by
  have hgear : ∀ index ∈ session.table.capabilities.gear, index < session.table.entries.length :=
    fun index hindex => hcapabilities index (Capabilities.mem_indices_of_mem_gear hindex)
  simp only [Cache.capabilityIndices, List.map_append, List.mem_append, or_imp,
    forall_and] at hcapabilities
  obtain ⟨⟨⟨hnpcs, hmech⟩, -⟩, ⟨⟨⟨⟨⟨hpickaxes, hhammers⟩, -⟩, -⟩, -⟩, harmorMinions⟩,
    haccessoryMinions⟩ := hcapabilities
  cases function with
  | npc =>
    obtain ⟨n, -, hn⟩ := threshold_eq_ok rfl hsuits
    rw [call, hn]
    exact (failsOnly_countHeld hnpcs).bind fun _ _ => Except.failsOnly_ok _
  | mechBoss =>
    obtain ⟨n, -, hn⟩ := threshold_eq_ok rfl hsuits
    rw [call, hn]
    exact (failsOnly_countHeld hmech).bind fun _ _ => Except.failsOnly_ok _
  | pickaxe =>
    obtain ⟨n, -, hn⟩ := threshold_eq_ok rfl hsuits
    rw [call, hn]
    exact failsOnly_holdsPower hpickaxes
  | hammer =>
    obtain ⟨n, -, hn⟩ := threshold_eq_ok rfl hsuits
    rw [call, hn]
    exact failsOnly_holdsPower hhammers
  | minions =>
    obtain ⟨n, -, hn⟩ := threshold_eq_ok rfl hsuits
    rw [call, hn]
    exact (failsOnly_heldBonuses harmorMinions).bind fun _ _ =>
      (failsOnly_heldBonuses haccessoryMinions).bind fun _ _ => Except.failsOnly_ok _
  | gearPower =>
    obtain ⟨n, -, hn⟩ := threshold_eq_ok rfl hsuits
    rw [call, hn]
    change (if session.options.requireOptimalGear = true then
      session.gearAdequate enter n else .ok true).FailsOnly E
    split
    · exact failsOnly_gearAdequate hgear (henter rfl)
    · exact Except.failsOnly_ok true
  | _ => exact Except.failsOnly_ok _

/-- A tree whose references are in range and whose calls suit their functions fails only where
what it enters does, or for a bare group. -/
theorem failsOnly_evaluate {tree : Tree}
    (hreferences : ∀ index ∈ tree.references, index < session.table.entries.length)
    (hcalls : tree.Suited) (hbare : ∀ count, tree.BareGroup count → E (.ambiguousOperator count))
    (henter : ∀ index ∈ tree.descents session.table.capabilities.gear, (enter index).FailsOnly E) :
    (tree.evaluate (session.meaning has enter)).FailsOnly E := by
  induction tree using Condition.induct with
  | item sign target quantity =>
    exact (failsOnly_holds (hreferences target List.mem_cons_self) quantity).map _
  | location sign target => exact (henter target List.mem_cons_self).map _
  | call sign function argument =>
    refine (failsOnly_call hcapabilities (Condition.suited_call.mp hcalls) ?_).map _
    rintro rfl index hindex
    exact henter index (by rwa [Condition.descents, if_pos rfl])
  | group sign operator members ih =>
    have hmembers : ∀ c ∈ members, (c.evaluate (session.meaning has enter)).FailsOnly E :=
      fun c hc => ih c hc
        (fun index hindex => hreferences index (Condition.mem_references_group.mpr ⟨c, hc, hindex⟩))
        (Condition.suited_group.mp hcalls c hc)
        (fun count h => hbare count (Condition.bareGroup_group.mpr (.inr ⟨c, hc, h⟩)))
        (fun index hindex => henter index (Condition.mem_descents_group.mpr ⟨c, hc, hindex⟩))
    cases operator with
    | none =>
      exact failsOnly_evaluate_unjoined hmembers fun hlength =>
        hbare _ (Condition.bareGroup_group.mpr (.inl ⟨rfl, hlength, rfl⟩))
    | some operator =>
      cases operator with
      | and =>
        simp only [Condition.evaluate, Condition.evaluateAll_eq_allM]
        exact (Except.failsOnly_allM hmembers).map _
      | or =>
        simp only [Condition.evaluate, Condition.evaluateAny_eq_anyM]
        exact (Except.failsOnly_anyM hmembers).map _

end

/-! ### Nested evaluations -/

/-- Evaluating the tree of one entry may enter the tree of another. -/
def Leads (session : Session) (i j : Nat) : Prop :=
  ∃ entry, session.table.entries[i]? = some entry ∧ session.Enters entry.tree j

/-- An entry leads only along descents. -/
theorem mem_descentsOf_of_leads {i j : Nat} (h : session.Leads i j) :
    j ∈ descentsOf session.table.entries session.table.capabilities i := by
  obtain ⟨entry, hentry, hj⟩ := h
  rw [descentsOf, hentry]
  exact mem_descents_of_enters hj

/-- What an entry of the table enters is among the descents of the entry. -/
theorem mem_descentsOf_of_mem_descents {i j : Nat} (hi : i < session.table.entries.length)
    (h : j ∈ session.table.entries[i].tree.descents session.table.capabilities.gear) :
    j ∈ descentsOf session.table.entries session.table.capabilities i := by
  rw [descentsOf, List.getElem?_eq_getElem hi]
  exact h

section
variable (hsound : session.table.Sound)
include hsound

/-- No chain of nested evaluations meets an entry twice, and each is one of the table. -/
theorem nodup_of_isChain_leads {i : Nat} (hi : i < session.table.entries.length)
    {chain : List Nat} (hchain : (i :: chain).IsChain session.Leads) :
    (i :: chain).Nodup ∧ ∀ j ∈ i :: chain, j < session.table.entries.length := by
  obtain ⟨done, hsettled, hdone⟩ := hsound.exists_settled
  obtain ⟨hnodup, hmem⟩ := hsettled.nodup_of_isChain ((hdone i).mpr hi)
    (hchain.imp fun _ _ => mem_descentsOf_of_leads)
  exact ⟨hnodup, fun j hj => (hdone j).mp (hmem j hj)⟩

/-- What holds of the entry of an index at a depth, if it holds of those it enters one level
above, holds at the depth that the number of entries gives. -/
theorem of_entries {P : Nat → Nat → Prop}
    (hstep : ∀ depth i (hi : i < session.table.entries.length),
      (∀ j ∈ session.table.entries[i].tree.descents session.table.capabilities.gear, P depth j) →
        P (depth + 1) i)
    {i : Nat} (hi : i < session.table.entries.length) : P session.table.entries.length i := by
  obtain ⟨done, hsettled, hdone⟩ := hsound.exists_settled
  refine hsettled.of_depth (fun depth n hn h => ?_)
    (hsettled.length_le fun n hn => (hdone n).mp hn) ((hdone i).mpr hi)
  have hlt := (hdone n).mp hn
  exact hstep depth n hlt fun j hj => h j (mem_descentsOf_of_mem_descents hlt hj)

/-- What holds of each entry that may be entered, if it holds of those it enters one level above,
holds of the entry where the evaluation starts. -/
theorem of_mayEnter {P : Nat → Nat → Prop} {start : Nat}
    (hstep : ∀ depth i (hi : i < session.table.entries.length), session.table.MayEnter start i →
      (∀ j ∈ session.table.entries[i].tree.descents session.table.capabilities.gear, P depth j) →
        P (depth + 1) i)
    (hstart : start < session.table.entries.length) : P session.table.entries.length start := by
  refine of_entries (P := fun depth i => session.table.MayEnter start i → P depth i) hsound
    (fun depth i hi h hmay => ?_) hstart .start
  exact hstep depth i hi hmay fun j hj =>
    h j hj (.descend hmay (mem_descentsOf_of_mem_descents hi hj))

/-- Entering an entry fails only for bare groups of trees that may be entered: the depth is
enough. -/
theorem failsOnly_enter {start : Nat}
    (hbare : ∀ i (hi : i < session.table.entries.length), session.table.MayEnter start i →
      ∀ count, session.table.entries[i].tree.BareGroup count → E (.ambiguousOperator count))
    (hstart : start < session.table.entries.length) : (session.enter has start).FailsOnly E := by
  refine of_mayEnter (P := fun depth i => (session.enterWithin has depth i).FailsOnly E) hsound
    (fun depth i hi hmay h => ?_) hstart
  have hmem : session.table.entries[i] ∈ session.table.entries := List.getElem_mem hi
  rw [enterWithin, entryAt_eq_ok hi]
  exact failsOnly_evaluate hsound.capabilities (hsound.references _ hmem) (hsound.calls _ hmem)
    (hbare i hi hmay) h

/-- Evaluating a tree over the table fails only for groups without an operator. -/
theorem failsOnly_evaluate_session
    (hjoined : session.table.Joined ∨ ∀ count, E (.ambiguousOperator count)) {tree : Tree}
    (hreferences : ∀ index ∈ tree.references, index < session.table.entries.length)
    (hcalls : tree.Suited) (htree : tree.Joined ∨ ∀ count, E (.ambiguousOperator count)) :
    (session.evaluate has tree).FailsOnly E := by
  -- either nothing is bare, or every bare group counts
  have hbare : ∀ {tree : Tree}, (tree.Joined ∨ ∀ count, E (.ambiguousOperator count)) →
      ∀ count, tree.BareGroup count → E (.ambiguousOperator count) := fun h count hbare =>
    h.elim (fun hjoined => (Condition.joined_iff.mp hjoined count hbare).elim) fun h => h count
  refine failsOnly_evaluate hsound.capabilities hreferences hcalls (hbare htree)
    fun index hindex => failsOnly_enter hsound (fun i hi _ =>
      hbare (hjoined.imp_left fun h => h _ (List.getElem_mem hi))) ?_
  rcases Condition.mem_of_mem_descents hindex with hindex | hindex
  · exact hreferences index hindex
  · exact hsound.capabilities index (Capabilities.mem_indices_of_mem_gear hindex)

/-- Let the value of an entry depend on nothing but the values of its descents.  One function gives
every entry its value, and going as deep as there are entries gives this function. -/
theorem eq_value_iff {α : Type} (value : (Nat → α) → Nat → α) {within : Nat → Nat → α}
    (hwithin : ∀ depth i, within (depth + 1) i = value (within depth) i)
    (hvalue : ∀ (f g : Nat → α) i (hi : i < session.table.entries.length),
      (∀ j ∈ session.table.entries[i].tree.descents session.table.capabilities.gear, f j = g j) →
        value f i = value g i) {f : Nat → α} :
    (∀ i < session.table.entries.length, f i = value f i) ↔
      ∀ i < session.table.entries.length, f i = within session.table.entries.length i := by
  have hstable : ∀ i < session.table.entries.length, within session.table.entries.length i =
      value (within session.table.entries.length) i := fun i hi => by
    rw [← hwithin]
    refine of_entries (P := fun depth i => within depth i = within (depth + 1) i) hsound
      (fun depth i hi h => ?_) hi
    rw [hwithin, hwithin]
    exact hvalue _ _ i hi h
  constructor
  · intro hf i hi
    refine of_entries (P := fun _ i => f i = within session.table.entries.length i) hsound
      (fun _ i hi h => ?_) hi
    rw [hf i hi, hstable i hi]
    exact hvalue _ _ i hi h
  · intro hf i hi
    rw [hf i hi, hstable i hi]
    refine hvalue _ _ i hi fun j hj => (hf j ?_).symm
    exact descentsOf_lt hsound.references hsound.capabilities (mem_descentsOf_of_mem_descents hi hj)

/-- Entering is the only function that evaluates the trees of entries by itself. -/
theorem eq_enter_iff {f : Nat → Except QueryError Bool} :
    (∀ i < session.table.entries.length, f i =
        session.entryAt i >>= fun entry => entry.tree.evaluate (session.meaning has f)) ↔
      ∀ i < session.table.entries.length, f i = session.enter has i := by
  refine eq_value_iff hsound (fun f i => session.entryAt i >>= fun entry =>
    entry.tree.evaluate (session.meaning has f)) (fun _ _ => rfl) fun f g i hi h => ?_
  simp only [entryAt_eq_ok hi]
  exact evaluate_congr fun j hj => h j (mem_descents_of_enters hj)

/-- Entering an entry of the table evaluates its tree. -/
theorem enter_eq {i : Nat} (hi : i < session.table.entries.length) :
    session.enter has i = session.entryAt i >>= fun entry =>
      entry.tree.evaluate (session.meaning has (session.enter has)) :=
  (eq_enter_iff hsound).mpr (fun _ _ => rfl) i hi

/-- Asking for a rule enters its entry. -/
theorem canReach_eq_enter {name : String} {start : Nat}
    (hname : session.table.indexOf? name = some start) :
    session.canReach has name = session.enter has start := by
  have hstart := Table.lt_of_indexOf? hname
  have hfound : session.table.entry? name = some session.table.entries[start] := by
    rw [Table.entry?_eq_getElem?, hname, Option.bind_some, List.getElem?_eq_getElem hstart]
  rw [canReach, entryNamed, hfound, enter_eq hsound hstart, entryAt_eq_ok hstart]
  rfl

end

theorem table_of_session {table : Table} {options : Options}
    (h : table.session options = .ok session) : session.table = table := by
  obtain ⟨goal, -, h⟩ := Except.bind_eq_ok_iff.mp h
  cases h
  rfl

/-- A condition that is resolved against a sound table can be evaluated over it, up to groups
without an operator. -/
theorem resolves_of_table_resolve {table : Table} {condition : Statement} {tree : Tree}
    (h : table.resolve condition = .ok tree) :
    Condition.Resolves table.entries.length condition tree := by
  have := Condition.resolves_of_resolve h
  rwa [Table.names, List.length_map] at this

/-- Evaluation ends.  A chain of nested evaluations only follows descents that were searched for
cycles, so it meets no entry twice; evaluation asks about no other entry; therefore evaluating the
trees of entries by themselves defines one function, and neither the tree of an entry nor that of a
resolved condition is ever too deep. -/
theorem evaluation_ends {table : Table} (htable : table.Made) {options : Options}
    {session : Session} (hsession : table.session options = .ok session) (has : Holdings) :
    (∀ i j, session.Leads i j → j ∈ descentsOf table.entries table.capabilities i) ∧
      (∀ i chain, i < table.entries.length → (i :: chain).IsChain session.Leads →
        (i :: chain).Nodup ∧ ∀ j ∈ i :: chain, j < table.entries.length) ∧
      (∀ (tree : Tree) enter enter', (∀ i, session.Enters tree i → enter i = enter' i) →
        tree.evaluate (session.meaning has enter) = tree.evaluate (session.meaning has enter')) ∧
      (∀ f : Nat → Except QueryError Bool,
        (∀ i < table.entries.length, f i =
            session.entryAt i >>= fun entry => entry.tree.evaluate (session.meaning has f)) ↔
          ∀ i < table.entries.length, f i = session.enter has i) ∧
      ∀ tree : Tree, (tree ∈ table.entries.map Entry.tree ∨
          ∃ condition, table.resolve condition = .ok tree) →
        (∀ i, session.Enters tree i → i < table.entries.length) ∧
          session.evaluate has tree ≠ .error .bottomlessDescent := by
  obtain rfl := table_of_session hsession
  have hsound := htable.sound
  refine ⟨fun i j => mem_descentsOf_of_leads,
    fun i chain hi hchain => nodup_of_isChain_leads hsound hi hchain,
    fun tree enter enter' => evaluate_congr, fun f => eq_enter_iff hsound, fun tree htree => ?_⟩
  have hrange : (∀ index ∈ tree.references, index < session.table.entries.length) ∧
      tree.Suited := by
    rcases htree with htree | ⟨condition, hcondition⟩
    · obtain ⟨entry, hentry, rfl⟩ := List.mem_map.mp htree
      exact ⟨hsound.references entry hentry, hsound.calls entry hentry⟩
    · have := resolves_of_table_resolve hcondition
      exact ⟨this.references, this.calls⟩
  refine ⟨fun i hi => ?_, fun h => ?_⟩
  · rcases Condition.mem_of_mem_descents (mem_descents_of_enters hi) with hi | hi
    · exact hrange.1 i hi
    · exact hsound.capabilities i (Capabilities.mem_indices_of_mem_gear hi)
  · -- only groups without an operator make evaluation fail
    have hambiguous : ∀ count, ∃ n, QueryError.ambiguousOperator count = .ambiguousOperator n :=
      fun count => ⟨count, rfl⟩
    obtain ⟨n, hn⟩ := failsOnly_evaluate_session (E := fun e => ∃ n, e = .ambiguousOperator n)
      hsound (.inr hambiguous) hrange.1 hrange.2 (.inr hambiguous) _ h
    cases hn

/-- The torch leads to the cave and the cave to the sword, each of them once. -/
theorem evaluation_ends_torchTable : ∃ session, Table.torchTable.session {} = .ok session ∧
    [0, 1, 3].IsChain session.Leads ∧ [0, 1, 3].Nodup := by
  let session : Session := ⟨Table.torchTable, {}, some ⟨"night", 4, ∅⟩⟩
  have hsession : Table.torchTable.session {} = .ok session := rfl
  have hcave : session.Leads 0 1 :=
    ⟨_, rfl, .member (List.mem_cons_of_mem _ List.mem_cons_self) (.location true 1)⟩
  have hgear : session.Enters (.call true .gearPower (some (.number 10))) (3, (20 : UInt64)).1 :=
    .gear rfl rfl List.mem_cons_self List.mem_cons_self rfl
  have hsword : session.Leads 1 3 := ⟨_, rfl, .member List.mem_cons_self hgear⟩
  have hchain : [0, 1, 3].IsChain session.Leads :=
    .cons_cons hcave (.cons_cons hsword (.singleton 3))
  exact ⟨session, hsession, hchain, ((evaluation_ends Table.made_torchTable hsession
    fun _ _ => false).2.1 0 [1, 3] (by decide) hchain).1⟩

end Session

end Reachability
