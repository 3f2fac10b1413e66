import Reachability.Proofs.Session.Evaluate

/-!
# Session — strict evaluation

Evaluation stops at the first condition that decides a group and at the first gear that holds.
Strict evaluation (`Session.evaluateStrictly`) reads everything: all members of a group, the tree of
every location, and all adequate gear of every table.  It fails if any of these fails, and otherwise
folds their values.  Whatever it yields, evaluation yields (`Session.evaluate_of_strictly`); it may
fail where evaluation does not.
-/

namespace Reachability

namespace Condition
variable (meaning : Meaning)

mutual
/-- The value of a tree, with all its conditions read. -/
def evaluateStrictly : Tree → Except QueryError Bool
  | .item sign target quantity => (sign == ·) <$> meaning.item target quantity
  | .location sign target => (sign == ·) <$> meaning.location target
  | .call sign function argument => (sign == ·) <$> meaning.call function argument
  | .group sign operator members => do
    let results ← evaluateEach members
    (sign == ·) <$> combine operator results

/-- The values of some trees. -/
def evaluateEach : List Tree → Except QueryError (List Bool)
  | [] => .ok []
  | c :: rest => do
    let result ← evaluateStrictly c
    let results ← evaluateEach rest
    return result :: results
end

theorem evaluateEach_eq_mapM (cs : List Tree) :
    evaluateEach meaning cs = cs.mapM (evaluateStrictly meaning) := by
  induction cs with
  | nil => rfl
  | cons c rest ih =>
    rw [evaluateEach, List.mapM_cons, ih]

end Condition

namespace Session
variable (session : Session) (has : Holdings)

/-- Whether each table of gear has an adequate group whose tree holds, with the trees of all
adequate groups entered. -/
def gearAdequateStrictly (enter : Nat → Except QueryError Bool) (n : UInt64) :
    Except QueryError Bool := do
  let held ← session.table.capabilities.gearTables.mapM fun gear => do
    let groups ← gear.mapM fun group => do
      if ← session.isAdequate n group then enter group.1 else return false
    return groups.any id
  return held.all id

/-- What a function answers if all adequate gear is entered. -/
def callStrictly (enter : Nat → Except QueryError Bool) (function : Builtin)
    (argument : Option Argument) : Except QueryError Bool :=
  match function with
  | .gearPower => do
    let n ← threshold function argument
    if session.options.requireOptimalGear then session.gearAdequateStrictly enter n
    else return true
  | _ => session.call has enter function argument

/-- What items, locations and functions say if all adequate gear is entered. -/
def strictMeaning (enter : Nat → Except QueryError Bool) : Meaning where
  item := session.holds has
  location := enter
  call := session.callStrictly has enter

/-- Whether the tree of an entry holds, with everything read, going at most `depth` trees deep. -/
def enterStrictlyWithin : Nat → Nat → Except QueryError Bool
  | 0, _ => .error .bottomlessDescent
  | depth + 1, index => do
    let entry ← session.entryAt index
    entry.tree.evaluateStrictly (session.strictMeaning has (enterStrictlyWithin depth))

/-- Whether the tree of an entry holds, with everything read. -/
def enterStrictly (index : Nat) : Except QueryError Bool :=
  session.enterStrictlyWithin has session.table.entries.length index

/-- Whether a tree holds, with everything read. -/
def evaluateStrictly (tree : Tree) : Except QueryError Bool :=
  tree.evaluateStrictly (session.strictMeaning has (session.enterStrictly has))

variable {session has} {enter enter' : Nat → Except QueryError Bool}

/-! ### What is read -/

theorem gearAdequateStrictly_congr {n : UInt64}
    (h : ∀ index ∈ session.table.capabilities.gear, enter index = enter' index) :
    session.gearAdequateStrictly enter n = session.gearAdequateStrictly enter' n := by
  refine congrArg (· >>= _) (Except.mapM_congr fun gear hgear =>
    congrArg (· >>= _) (Except.mapM_congr fun group hgroup => ?_))
  rw [h group.1 (List.mem_map_of_mem (List.mem_flatten_of_mem hgear hgroup))]

/-- Strict evaluation asks about no entry but the descents of the tree. -/
theorem evaluateStrictly_congr {tree : Tree}
    (h : ∀ index ∈ tree.descents session.table.capabilities.gear, enter index = enter' index) :
    tree.evaluateStrictly (session.strictMeaning has enter) =
      tree.evaluateStrictly (session.strictMeaning has enter') := by
  induction tree using Condition.induct with
  | item => rfl
  | location sign target =>
    simp only [Condition.evaluateStrictly, strictMeaning, h target List.mem_cons_self]
  | call sign function argument =>
    cases function with
    | gearPower =>
      rw [Condition.descents, if_pos rfl] at h
      simp only [Condition.evaluateStrictly, strictMeaning, callStrictly,
        gearAdequateStrictly_congr h]
    | _ => rfl
  | group sign operator members ih =>
    have hmembers : ∀ c ∈ members, c.evaluateStrictly (session.strictMeaning has enter) =
        c.evaluateStrictly (session.strictMeaning has enter') :=
      fun c hc => ih c hc fun index hindex =>
        h index (Condition.mem_descents_group.mpr ⟨c, hc, hindex⟩)
    simp only [Condition.evaluateStrictly, Condition.evaluateEach_eq_mapM,
      Except.mapM_congr hmembers]

/-- Entering strictly is the only function that evaluates the trees of entries by itself, with
everything read. -/
theorem eq_enterStrictly_iff (hsound : session.table.Sound) {f : Nat → Except QueryError Bool} :
    (∀ i < session.table.entries.length, f i = session.entryAt i >>= fun entry =>
        entry.tree.evaluateStrictly (session.strictMeaning has f)) ↔
      ∀ i < session.table.entries.length, f i = session.enterStrictly has i := by
  refine eq_value_iff hsound (fun f i => session.entryAt i >>= fun entry =>
    entry.tree.evaluateStrictly (session.strictMeaning has f)) (fun _ _ => rfl) fun f g i hi h => ?_
  simp only [entryAt_eq_ok hi]
  exact evaluateStrictly_congr h

/-! ### What evaluation reads of it -/

theorem settles_gearAdequate {n : UInt64} (henter : ∀ i, (enter i).Settles (enter' i)) :
    (session.gearAdequateStrictly enter n).Settles (session.gearAdequate enter' n) := by
  refine Except.settles_allM fun gear _ => Except.settles_anyM fun group _ => ?_
  refine (Except.settles_refl _).bind fun adequate => ?_
  cases adequate with
  | true => exact henter group.1
  | false => exact Except.settles_refl _

theorem settles_call {function : Builtin} {argument : Option Argument}
    (henter : ∀ i, (enter i).Settles (enter' i)) :
    (session.callStrictly has enter function argument).Settles
      (session.call has enter' function argument) := by
  cases function with
  | gearPower =>
    refine (Except.settles_refl _).bind fun n => ?_
    split
    · exact settles_gearAdequate henter
    · exact Except.settles_refl _
  | _ => exact Except.settles_refl _

/-- Folding the values of all members yields what reading up to the one that decides does. -/
theorem settles_group {meaning meaning' : Meaning} {sign : Bool} {operator : Option Operator}
    {members : List Tree}
    (hmembers : ∀ c ∈ members, (c.evaluateStrictly meaning).Settles (c.evaluate meaning')) :
    ((Condition.group sign operator members).evaluateStrictly meaning).Settles
      ((Condition.group sign operator members).evaluate meaning') := by
  intro value hvalue
  rw [Condition.evaluateStrictly, Condition.evaluateEach_eq_mapM] at hvalue
  obtain ⟨results, hresults, hvalue⟩ := Except.bind_eq_ok_iff.mp hvalue
  obtain ⟨folded, hfolded, rfl⟩ := Except.map_eq_ok_iff.mp hvalue
  cases operator with
  | none =>
    rcases members with _ | ⟨c, _ | ⟨d, rest⟩⟩
    · cases hresults
      cases hfolded
      rfl
    · obtain ⟨result, _, hresult, ⟨⟩, rfl⟩ := Except.mapM_cons_eq_ok_iff.mp hresults
      cases hfolded
      rw [Condition.evaluate, Condition.evaluateOnly, hmembers c List.mem_cons_self _ hresult]
      rfl
    · -- several values are not folded without an operator
      obtain ⟨_, _, -, hrest, rfl⟩ := Except.mapM_cons_eq_ok_iff.mp hresults
      obtain ⟨_, _, -, -, rfl⟩ := Except.mapM_cons_eq_ok_iff.mp hrest
      cases hfolded
  | some operator =>
    cases operator with
    | and =>
      cases hfolded
      rw [Condition.evaluate, Condition.evaluateAll_eq_allM, Except.settles_allM hmembers _
        (Except.map_eq_ok_iff.mpr ⟨results, hresults, rfl⟩)]
      rfl
    | or =>
      cases hfolded
      rw [Condition.evaluate, Condition.evaluateAny_eq_anyM, Except.settles_anyM hmembers _
        (Except.map_eq_ok_iff.mpr ⟨results, hresults, rfl⟩)]
      rfl

theorem settles_evaluate {tree : Tree} (henter : ∀ i, (enter i).Settles (enter' i)) :
    (tree.evaluateStrictly (session.strictMeaning has enter)).Settles
      (tree.evaluate (session.meaning has enter')) := by
  induction tree using Condition.induct with
  | item sign target quantity => exact Except.settles_refl _
  | location sign target => exact (henter target).map _
  | call sign function argument => exact (settles_call henter).map _
  | group sign operator members ih => exact settles_group ih

theorem settles_enterWithin (depth : Nat) (i : Nat) :
    (session.enterStrictlyWithin has depth i).Settles (session.enterWithin has depth i) := by
  induction depth generalizing i with
  | zero => exact Except.settles_refl _
  | succ depth ih => exact (Except.settles_refl _).bind fun entry => settles_evaluate ih

/-- Stopping early changes no value.  Evaluating the trees of entries strictly by themselves defines
one function, since no tree of the table comes back to itself; and whatever strict evaluation of a
tree yields, evaluation yields. -/
theorem evaluate_of_strictly {table : Table} (htable : table.Made) {options : Options}
    {session : Session} (hsession : table.session options = .ok session) (has : Holdings) :
    (∀ f : Nat → Except QueryError Bool,
        (∀ i < table.entries.length, f i = session.entryAt i >>= fun entry =>
            entry.tree.evaluateStrictly (session.strictMeaning has f)) ↔
          ∀ i < table.entries.length, f i = session.enterStrictly has i) ∧
      ∀ (tree : Tree) (value : Bool), session.evaluateStrictly has tree = .ok value →
        session.evaluate has tree = .ok value := by
  obtain rfl := table_of_session hsession
  exact ⟨fun f => eq_enterStrictly_iff htable.sound,
    fun tree => settles_evaluate (settles_enterWithin _)⟩

/-- Without armor the torch is out of reach, also if everything is read. -/
theorem evaluate_of_strictly_torchTable : ∃ session tree,
    Table.torchTable.session {} = .ok session ∧
      (Table.torchTable.entry? "Torch").map Entry.tree = some tree ∧
      session.evaluateStrictly (fun _ _ => true) tree = .ok false ∧
      session.evaluate (fun _ _ => true) tree = .ok false := by
  let session : Session := ⟨Table.torchTable, {}, some ⟨"night", 4, ∅⟩⟩
  have hsession : Table.torchTable.session {} = .ok session := rfl
  refine ⟨session, _, hsession, rfl, rfl, ?_⟩
  exact (evaluate_of_strictly Table.made_torchTable hsession fun _ _ => true).2 _ false rfl

end Session

end Reachability
