import Mathlib.Data.List.Nodup
import Mathlib.Logic.Relation
import Reachability.Proofs.Table.Order

/-!
# Table — the cycles that a search finds

A depth-first search that stops has closed a cycle (`isCycle_of_findCycle?`), and one that does not
stop has settled every node, so no walk comes back to where it started.  The search therefore
stops exactly if some node can be reached from itself (`findCycle?_eq_none_iff`).
-/

namespace Reachability.Descent

variable {count : Nat} {next : Nat → List Nat}

/-- The first of the two nodes leads to the second one. -/
def Leads (next : Nat → List Nat) (n m : Nat) : Prop := m ∈ next n

/-- A walk that ends where it starts and passes every other node once. -/
structure IsCycle (next : Nat → List Nat) (cycle : List Nat) : Prop where
  two_le : 2 ≤ cycle.length
  closed : cycle.head? = cycle.getLast?
  edges : cycle.IsChain (Leads next)
  nodup : cycle.tail.Nodup

/-- The node where a cycle starts can be reached from itself. -/
theorem IsCycle.exists_transGen {cycle : List Nat} (h : IsCycle next cycle) :
    ∃ n, Relation.TransGen (Leads next) n n := by
  obtain ⟨htwo, hclosed, hedges, -⟩ := h
  match cycle with
  | [] | [_] => simp at htwo
  | first :: second :: rest =>
    obtain ⟨hfirst, hrest⟩ := List.isChain_cons_cons.mp hedges
    have hlast : (second :: rest).getLast (List.cons_ne_nil _ _) = first := by
      simpa [List.getLast?_eq_some_getLast, eq_comm] using hclosed
    exact ⟨first, .head' hfirst (List.relationReflTransGen_of_exists_isChain_cons rest hrest hlast)⟩

/-! ### A search that stops -/

/-- Coming back to a node of the path closes a cycle. -/
theorem isCycle_cycleAt {path : List Nat} {node : Nat} (hpath : path.Nodup)
    (hchain : (node :: path).IsChain fun n m => Leads next m n) (hmem : node ∈ path) :
    IsCycle next (cycleAt path node) := by
  obtain ⟨before, after, rfl, hbefore⟩ := List.eq_append_cons_of_mem hmem
  have hcycle : cycleAt (before ++ node :: after) node = node :: before.reverse ++ [node] := by
    have hne : ∀ n ∈ before, (n != node) = true := by
      intro n hn
      rw [bne_iff_ne]
      rintro rfl
      exact hbefore hn
    rw [cycleAt, List.takeWhile_append_of_pos hne, List.takeWhile_cons_of_neg (by simp),
      List.append_nil]
  -- read backwards, the cycle is how the path starts, from `node` on
  have hreverse : (node :: before.reverse ++ [node]).reverse = node :: before ++ [node] := by simp
  rw [hcycle]
  constructor
  case two_le => simp
  case closed => rw [List.getLast?_concat]; rfl
  case edges =>
    rw [← List.reverse_reverse (node :: before.reverse ++ [node]), hreverse, List.isChain_reverse]
    have hwhole : (node :: before ++ [node] ++ after).IsChain fun n m => Leads next m n := by
      simpa using hchain
    exact hwhole.left_of_append
  case nodup =>
    have hnodup : before.Nodup := (List.nodup_append.mp hpath).1
    rw [List.cons_append, List.tail_cons, ← List.concat_eq_append]
    exact .concat (by simpa using hbefore) (List.nodup_reverse.mpr hnodup)

/-- A search below a node that stops has closed a cycle. -/
theorem isCycle_of_visit {fuel : Nat} {path done cycle : List Nat} {node : Nat}
    (hpath : path.Nodup) (hchain : (node :: path).IsChain fun n m => Leads next m n)
    (h : visit next fuel path done node = .error cycle) : IsCycle next cycle := by
  induction fuel generalizing path done node with
  | zero => cases h
  | succ fuel ih =>
    rw [visit] at h
    split at h
    · cases h
    · split at h
      · next hmem =>
        cases h
        exact isCycle_cycleAt hpath hchain (List.contains_iff_mem.mp hmem)
      · next hoff =>
        rw [List.contains_iff_mem] at hoff
        -- only the search below one of the nodes that `node` leads to can stop
        have hstep : ∃ m ∈ next node, ∃ done,
            visit next fuel (node :: path) done m = .error cycle := by
          cases hrun : (next node).foldlM (visit next fuel (node :: path)) done with
          | ok mid =>
            rw [hrun] at h
            cases h
          | error e =>
            rw [hrun] at h
            cases h
            exact Except.exists_of_foldlM_eq_error hrun
        obtain ⟨m, hm, done, hstep⟩ := hstep
        exact ih (List.nodup_cons.mpr ⟨hoff, hpath⟩) (List.isChain_cons_cons.mpr ⟨hm, hchain⟩) hstep

/-- What a search reports is a cycle. -/
theorem isCycle_of_findCycle? {cycle : List Nat} (h : findCycle? count next = some cycle) :
    IsCycle next cycle := by
  unfold findCycle? at h
  split at h
  · cases h
  · next found hfound =>
    cases h
    obtain ⟨n, -, done, hstep⟩ := Except.exists_of_foldlM_eq_error hfound
    exact isCycle_of_visit List.nodup_nil (List.isChain_singleton n) hstep

/-! ### A search that does not stop -/

namespace Settled

/-- From settled nodes a walk only comes to settled ones. -/
theorem mem_of_reflTransGen {done : List Nat} (h : Settled next done) {n m : Nat} (hn : n ∈ done)
    (hwalk : Relation.ReflTransGen (Leads next) n m) : m ∈ done := by
  obtain ⟨walk, hchain, rfl⟩ := List.exists_isChain_cons_of_relationReflTransGen hwalk
  exact (h.nodup_of_isChain hn hchain).2 _ (List.getLast_mem _)

/-- A settled node cannot be reached from itself. -/
theorem not_transGen {done : List Nat} (h : Settled next done) {n : Nat} (hn : n ∈ done) :
    ¬Relation.TransGen (Leads next) n n := by
  induction h with
  | nil => cases hn
  | @cons first done hnot hnext hdone ih =>
    rcases List.mem_cons.mp hn with rfl | hmem
    · intro hwalk
      obtain ⟨m, hm, hrest⟩ := Relation.TransGen.head'_iff.mp hwalk
      exact hnot (hdone.mem_of_reflTransGen (hnext m hm) hrest)
    · exact ih hmem

end Settled

/-- No cycle is found exactly if no node can be reached from itself, where edges go between nodes
below `count` only. -/
theorem findCycle?_eq_none_iff (hlt : ∀ n m, Leads next n m → n < count ∧ m < count) :
    findCycle? count next = none ↔ ∀ n, ¬Relation.TransGen (Leads next) n n := by
  constructor
  · intro hnone n hwalk
    obtain ⟨done, hdone, hmem⟩ := exists_settled (fun n _ m hm => (hlt n m hm).2) hnone
    obtain ⟨m, hm, -⟩ := Relation.TransGen.head'_iff.mp hwalk
    exact hdone.not_transGen ((hmem n).mpr (hlt n m hm).1) hwalk
  · intro hacyclic
    by_contra hsome
    obtain ⟨cycle, hcycle⟩ := Option.ne_none_iff_exists'.mp hsome
    obtain ⟨n, hwalk⟩ := (isCycle_of_findCycle? hcycle).exists_transGen
    exact hacyclic n hwalk

end Reachability.Descent
