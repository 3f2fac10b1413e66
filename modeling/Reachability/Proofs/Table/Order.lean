import Mathlib.Data.List.Chain
import Reachability.Proofs.Outcome
import Reachability.Table.Descent

/-!
# Table — the order that a search without a cycle leaves

A depth-first search that meets no cycle lists the nodes so that each one only leads to nodes
after it (`Settled`).  Every walk along the edges then goes down the list, so it meets no node
twice and ends.
-/

namespace Reachability.Descent

variable {count : Nat} {next : Nat → List Nat}

/-- A list of different nodes, each of which leads only to nodes after it. -/
inductive Settled (next : Nat → List Nat) : List Nat → Prop
  | nil : Settled next []
  | cons {node : Nat} {done : List Nat} :
      node ∉ done → (∀ m ∈ next node, m ∈ done) → Settled next done → Settled next (node :: done)

namespace Settled

theorem nodup {done : List Nat} (h : Settled next done) : done.Nodup := by
  induction h with
  | nil => exact List.nodup_nil
  | cons hnot _ _ ih => exact List.nodup_cons.mpr ⟨hnot, ih⟩

/-- Nodes below `count` are at most `count` many. -/
theorem length_le {done : List Nat} (h : Settled next done) (hlt : ∀ n ∈ done, n < count) :
    done.length ≤ count := by
  have := h.nodup.length_le_of_subset fun n hn => List.mem_range.mpr (hlt n hn)
  rwa [List.length_range] at this

/-- A property of nodes at depths passes down to the settled nodes at every depth that is at least
their number, if it passes from what a node leads to, to the node one level deeper. -/
theorem of_depth {P : Nat → Nat → Prop} {done : List Nat} (h : Settled next done)
    (hstep : ∀ depth, ∀ n ∈ done, (∀ m ∈ next n, P depth m) → P (depth + 1) n) {depth : Nat}
    (hdepth : done.length ≤ depth) {node : Nat} (hnode : node ∈ done) : P depth node := by
  induction h generalizing depth node with
  | nil => cases hnode
  | @cons first done _ hnext _ ih =>
    have hrest : ∀ depth ≥ done.length, ∀ n ∈ done, P depth n := fun depth hdepth n hn =>
      ih (fun d m hm => hstep d m (List.mem_cons_of_mem first hm)) hdepth hn
    rcases List.mem_cons.mp hnode with rfl | hmem
    · obtain ⟨d, rfl⟩ := Nat.exists_eq_add_of_le hdepth
      rw [List.length_cons, Nat.add_right_comm]
      exact hstep _ node List.mem_cons_self fun m hm =>
        hrest _ (Nat.le_add_right _ _) m (hnext m hm)
    · exact hrest depth (Nat.le_of_succ_le hdepth) node hmem

/-- A walk that starts at a settled node passes only settled ones, none of them twice. -/
theorem nodup_of_isChain {done : List Nat} (h : Settled next done) {node : Nat} {walk : List Nat}
    (hnode : node ∈ done) (hwalk : (node :: walk).IsChain fun n m => m ∈ next n) :
    (node :: walk).Nodup ∧ ∀ n ∈ node :: walk, n ∈ done := by
  induction h generalizing node walk with
  | nil => cases hnode
  | @cons first done hnot hnext hdone ih =>
    rcases List.mem_cons.mp hnode with rfl | hmem
    · cases walk with
      | nil => exact ⟨by simp, by simp⟩
      | cons m walk =>
        -- the rest of the walk starts at a node after the first one and stays there
        obtain ⟨hm, hrest⟩ := List.isChain_cons_cons.mp hwalk
        obtain ⟨hnodup, hsub⟩ := ih (hnext m hm) hrest
        refine ⟨List.nodup_cons.mpr ⟨fun hmem => hnot (hsub node hmem), hnodup⟩, fun n hn => ?_⟩
        rcases List.mem_cons.mp hn with rfl | hn
        · exact List.mem_cons_self
        · exact List.mem_cons_of_mem node (hsub n hn)
    · obtain ⟨hnodup, hsub⟩ := ih hmem hwalk
      exact ⟨hnodup, fun n hn => List.mem_cons_of_mem first (hsub n hn)⟩

end Settled

/-! ### The search -/

/-- What a search adds to the settled nodes: nodes below `count`, none of them on the path. -/
structure Grown (count : Nat) (next : Nat → List Nat) (path done done' : List Nat) : Prop where
  settled : Settled next done'
  kept : ∀ n ∈ done, n ∈ done'
  added : ∀ n ∈ done', n ∈ done ∨ n < count ∧ n ∉ path

namespace Grown

variable {path done done' done'' : List Nat}

theorem refl (h : Settled next done) : Grown count next path done done :=
  ⟨h, fun _ hn => hn, fun _ hn => .inl hn⟩

theorem trans (h : Grown count next path done done') (h' : Grown count next path done' done'') :
    Grown count next path done done'' :=
  ⟨h'.settled, fun n hn => h'.kept n (h.kept n hn),
    fun n hn => (h'.added n hn).elim (h.added n) .inr⟩

end Grown

/-- Searching below several nodes grows what is settled if searching below each one does. -/
theorem grown_of_foldlM {step : List Nat → Nat → Except (List Nat) (List Nat)}
    {path nodes done done' : List Nat}
    (hstep : ∀ node ∈ nodes, ∀ {done done' : List Nat}, Settled next done →
      step done node = .ok done' → Grown count next path done done' ∧ node ∈ done')
    (hdone : Settled next done) (h : nodes.foldlM step done = .ok done') :
    Grown count next path done done' ∧ ∀ n ∈ nodes, n ∈ done' := by
  induction nodes generalizing done with
  | nil =>
    cases h
    exact ⟨.refl hdone, by simp⟩
  | cons node nodes ih =>
    rw [List.foldlM_cons] at h
    obtain ⟨mid, hmid, h⟩ := Except.bind_eq_ok_iff.mp h
    obtain ⟨hgrown, hnode⟩ := hstep node List.mem_cons_self hdone hmid
    obtain ⟨hgrown', hnodes⟩ :=
      ih (fun n hn => hstep n (List.mem_cons_of_mem node hn)) hgrown.settled h
    refine ⟨hgrown.trans hgrown', fun n hn => ?_⟩
    rcases List.mem_cons.mp hn with rfl | hn
    · exact hgrown'.kept n hnode
    · exact hnodes n hn

/-- A search that meets no cycle settles its node.  The depth that is left makes up for the length
of the path, which repeats no node. -/
theorem grown_of_visit (hnext : ∀ n < count, ∀ m ∈ next n, m < count) {fuel : Nat}
    {path : List Nat} (hpath : path.Nodup) (hbelow : ∀ n ∈ path, n < count)
    (hfuel : count < fuel + path.length) {node : Nat} (hnode : node < count)
    {done done' : List Nat} (hdone : Settled next done)
    (h : visit next fuel path done node = .ok done') :
    Grown count next path done done' ∧ node ∈ done' := by
  induction fuel generalizing path node done done' with
  | zero =>
    -- the path would hold more nodes below `count` than there are
    have := hpath.length_le_of_subset fun n hn => List.mem_range.mpr (hbelow n hn)
    rw [List.length_range] at this
    omega
  | succ fuel ih =>
    unfold visit at h
    split at h
    · next hmem =>
      cases h
      exact ⟨.refl hdone, List.contains_iff_mem.mp hmem⟩
    · next hnew =>
      split at h
      · cases h
      · next hoff =>
        rw [List.contains_iff_mem] at hnew hoff
        obtain ⟨mid, hmid, h⟩ := Except.bind_eq_ok_iff.mp h
        cases h
        have hpath' : (node :: path).Nodup := List.nodup_cons.mpr ⟨hoff, hpath⟩
        have hbelow' : ∀ n ∈ node :: path, n < count := by
          rintro n (_ | ⟨_, hn⟩)
          · exact hnode
          · exact hbelow n hn
        have hfuel' : count < fuel + (node :: path).length := by
          rw [List.length_cons]
          omega
        obtain ⟨hgrown, hchildren⟩ := grown_of_foldlM
          (fun m hm _ _ => ih hpath' hbelow' hfuel' (hnext node hnode m hm)) hdone hmid
        -- the search below `node` adds nothing of the path, of which `node` is the head
        have hnot : node ∉ mid := fun hmem =>
          (hgrown.added node hmem).elim hnew fun hadded => hadded.2 List.mem_cons_self
        refine ⟨⟨.cons hnot hchildren hgrown.settled,
          fun n hn => List.mem_cons_of_mem node (hgrown.kept n hn), fun n hn => ?_⟩,
          List.mem_cons_self⟩
        rcases List.mem_cons.mp hn with rfl | hn
        · exact .inr ⟨hnode, hoff⟩
        · exact (hgrown.added n hn).imp_right fun hadded =>
            ⟨hadded.1, fun hmem => hadded.2 (List.mem_cons_of_mem node hmem)⟩

/-- Where no cycle is found, the nodes can be listed so that each one only leads to nodes after
it. -/
theorem exists_settled (hnext : ∀ n < count, ∀ m ∈ next n, m < count)
    (h : findCycle? count next = none) :
    ∃ done, Settled next done ∧ ∀ n, n ∈ done ↔ n < count := by
  unfold findCycle? at h
  split at h
  · next done hdone =>
    obtain ⟨hgrown, hnodes⟩ : Grown count next [] [] done ∧ ∀ n ∈ List.range count, n ∈ done :=
      grown_of_foldlM (fun n hn _ _ => grown_of_visit hnext List.nodup_nil (by simp) (by simp)
        (List.mem_range.mp hn)) .nil hdone
    refine ⟨done, hgrown.settled, fun n => ⟨fun hn => ?_, fun hn => ?_⟩⟩
    · exact (hgrown.added n hn).elim (fun h => absurd h List.not_mem_nil) (·.1)
    · exact hnodes n (List.mem_range.mpr hn)
  · cases h

end Reachability.Descent
