import Bytecode.Proofs.Graph.Adjacency
import Mathlib.Combinatorics.Enumerative.DoubleCounting

/-!
# Edges one by one and all at once

Edges from one node can be added one by one or all at once. The bulk operation tests its targets
against the successors there were at the start and the targets met since; the single one against
the successors of the moment. Both leave the same graph and take up the same number of edges. That
number is kept, so the count of a graph is the length of all its lists, in either direction.
-/

namespace Bytecode.Digraph

variable {α : Type} {g : Digraph α}

/-- Add the edges from `u` one by one, and count those that are taken up. -/
def addEach (u : Nat) : Digraph α → List Nat → Digraph α × Nat
  | g, [] => (g, 0)
  | g, v :: vs =>
    let rest := addEach u (g.addEdge u v) vs
    (rest.1, (g.accepts u v).toNat + rest.2)

/-! ### In two lots -/

/-- Which targets are known matters, and not their order. -/
theorem newTargets_congr (size : Nat) {known known' : List Nat}
    (h : ∀ v, v ∈ known ↔ v ∈ known') (vs : List Nat) :
    newTargets size known vs = newTargets size known' vs := by
  induction vs generalizing known known' with
  | nil => rfl
  | cons v vs ih =>
    have hv : known.contains v = known'.contains v := by
      rw [Bool.eq_iff_iff, List.contains_iff_mem, List.contains_iff_mem, h]
    have hcons (x : Nat) : x ∈ v :: known ↔ x ∈ v :: known' := by
      rw [List.mem_cons, List.mem_cons, h]
    rw [newTargets, newTargets, hv, ih h, ih hcons]

/-- The second lot of targets is tested against the first. -/
theorem newTargets_append (size : Nat) (known vs ws : List Nat) :
    newTargets size known (vs ++ ws) =
      newTargets size known vs ++ newTargets size (known ++ newTargets size known vs) ws := by
  induction vs generalizing known with
  | nil => rw [List.nil_append, newTargets, List.nil_append, List.append_nil]
  | cons v vs ih =>
    rw [List.cons_append, newTargets, newTargets]
    split
    · have hknown (x : Nat) : x ∈ (v :: known) ++ newTargets size (v :: known) vs ↔
          x ∈ known ++ v :: newTargets size (v :: known) vs := by
        simp only [List.mem_append, List.mem_cons]
        tauto
      rw [ih, newTargets_congr size hknown, List.cons_append]
    · exact ih known

section

variable (g) (u : Nat) (vs ws : List Nat)

private theorem newSuccessors_append :
    g.newSuccessors u (vs ++ ws) =
      g.newSuccessors u vs ++ (g.addEdges u vs).newSuccessors u ws := by
  have hsucc := g.successors_addEdges u vs u
  rw [if_pos rfl] at hsucc
  by_cases hu : u < g.size
  · have hnew (l : List Nat) : g.newSuccessors u l = newTargets g.size (g.successors u) l :=
      if_pos hu
    have hnext : (g.addEdges u vs).newSuccessors u ws =
        newTargets g.size (g.successors u ++ g.newSuccessors u vs) ws := by
      rw [newSuccessors, size_addEdges, if_pos hu, hsucc]
    rw [hnext, hnew, hnew, newTargets_append]
  · simp [newSuccessors, hu]

/-- Two lots of edges are added as one. -/
theorem addEdges_append : g.addEdges u (vs ++ ws) = (g.addEdges u vs).addEdges u ws := by
  have hrows (added added' : List Nat) :
      g.succs.modify u (· ++ (added ++ added')) =
        (g.succs.modify u (· ++ added)).modify u (· ++ added') := by
    apply Array.ext_getElem?
    intro i
    simp only [Array.getElem?_modify]
    split <;> simp [Function.comp_def]
  have hnew := g.newSuccessors_append u vs ws
  apply Digraph.ext
  case payloads => rfl
  case succs =>
    change g.succs.modify u (· ++ g.newSuccessors u (vs ++ ws)) = _
    rw [hnew, hrows]
    rfl
  case preds =>
    change (g.newSuccessors u (vs ++ ws)).foldl (pushPred u) g.preds = _
    rw [hnew, List.foldl_append]
    rfl
  case edgeCount =>
    change g.edgeCount + (g.newSuccessors u (vs ++ ws)).length = _
    rw [hnew, List.length_append, ← Nat.add_assoc]
    rfl

end

/-- One by one the same edges are added as all at once. -/
theorem addEach_eq (g : Digraph α) (u : Nat) (vs : List Nat) :
    addEach u g vs = (g.addEdges u vs, (g.newSuccessors u vs).length) := by
  induction vs generalizing g with
  | nil =>
    have hnil : g.newSuccessors u [] = [] := by simp [newSuccessors, newTargets]
    rw [addEach, addEdges_eq_self hnil, hnil, List.length_nil]
  | cons v vs ih =>
    have hone : (g.accepts u v).toNat = (g.newSuccessors u [v]).length := by
      rw [newSuccessors_singleton]
      cases g.accepts u v <;> rfl
    rw [addEach, addEdge_eq_addEdges, ih, ← addEdges_append, hone, ← List.length_append,
      ← newSuccessors_append]
    rfl

/-! ### The number of edges -/

/-- A number beyond the nodes has no successors. -/
theorem successors_eq_nil {u : Nat} (hu : g.size ≤ u) : g.successors u = [] := by
  rw [List.eq_nil_iff_forall_not_mem]
  intro v hv
  exact absurd (lt_of_mem_successors hv) (by omega)

/-- Every new successor is one more in the lists. -/
theorem sum_successors_addEdges (g : Digraph α) (u : Nat) (vs : List Nat) :
    ∑ n ∈ Finset.range g.size, ((g.addEdges u vs).successors n).length =
      (∑ n ∈ Finset.range g.size, (g.successors n).length) + (g.newSuccessors u vs).length := by
  have hlength (n : Nat) : ((g.addEdges u vs).successors n).length =
      (g.successors n).length + if n = u then (g.newSuccessors u vs).length else 0 := by
    rw [successors_addEdges, List.length_append]
    split <;> rfl
  simp only [hlength, Finset.sum_add_distrib, Finset.sum_ite_eq', Finset.mem_range]
  split
  · rfl
  · next hu => simp [newSuccessors, hu]

private theorem Built.edgeCount_eq_sum_successors (h : g.Built) :
    g.edgeCount = ∑ u ∈ Finset.range g.size, (g.successors u).length := by
  induction h with
  | empty => rfl
  | @addNode g payload hg ih =>
    have hlast : (g.successors g.size).length = 0 := by
      rw [successors_eq_nil (Nat.le_refl _), List.length_nil]
    simp only [size_addNode, Finset.sum_range_succ, successors_addNode, hlast, Nat.add_zero]
    exact ih
  | addEdge u v hg ih =>
    rw [addEdge_eq_addEdges, size_addEdges, sum_successors_addEdges, ← ih]
    rfl
  | addEdges u vs hg ih =>
    rw [size_addEdges, sum_successors_addEdges, ← ih]
    rfl

/-- Seen from their ends there are as many edges as seen from their sources. -/
theorem WF.sum_predecessors_eq (h : g.WF) :
    ∑ v ∈ Finset.range g.size, (g.predecessors v).length =
      ∑ u ∈ Finset.range g.size, (g.successors u).length := by
  have hsucc (u : Nat) : (g.successors u).length =
      ((Finset.range g.size).bipartiteAbove (fun u v ↦ v ∈ g.successors u) u).card := by
    rw [← List.toFinset_card_of_nodup (h.succ_nodup u)]
    congr 1
    ext v
    simpa using h.succ_lt u v
  have hpred (v : Nat) : (g.predecessors v).length =
      ((Finset.range g.size).bipartiteBelow (fun u v ↦ v ∈ g.successors u) v).card := by
    rw [← List.toFinset_card_of_nodup (h.pred_nodup v)]
    congr 1
    ext u
    simpa [h.mem_preds] using lt_of_mem_successors
  simp only [hsucc, hpred, Finset.sum_card_bipartiteAbove_eq_sum_card_bipartiteBelow]

/-- In every graph that can be made, each edge runs between two nodes and is listed once at its
source and once at its end, and it is counted once. To add edges from a node all at once is to add
them one by one, and takes up as many. -/
theorem Built.adjacency (h : g.Built) :
    (∀ u, (g.successors u).Nodup) ∧
    (∀ u v, v ∈ g.successors u → u < g.size ∧ v < g.size) ∧
    (∀ u v, (g.predecessors v).count u = if v ∈ g.successors u then 1 else 0) ∧
    g.edgeCount = ∑ u ∈ Finset.range g.size, (g.successors u).length ∧
    g.edgeCount = ∑ v ∈ Finset.range g.size, (g.predecessors v).length ∧
    ∀ u vs, addEach u g vs = (g.addEdges u vs, (g.newSuccessors u vs).length) := by
  have hw := h.wf
  refine ⟨hw.succ_nodup, fun u v hv ↦ ⟨lt_of_mem_successors hv, hw.succ_lt u v hv⟩, ?_,
    h.edgeCount_eq_sum_successors, ?_, g.addEach_eq⟩
  · intro u v
    rw [(hw.pred_nodup v).count]
    simp only [hw.mem_preds]
  · rw [hw.sum_predecessors_eq]
    exact h.edgeCount_eq_sum_successors

/-- Three nodes, with edges that were asked for twice, lead out of the graph or back to their
source. -/
def tangle : Digraph BlockId :=
  ((((empty.addNode 7).addNode 8).addNode 9).addEdge 0 2).addEdges 1 [1, 5, 1, 0]

/-- What was asked for twice or leads out of `tangle` is not in it, whichever way its edges are
counted. -/
theorem tangle_adjacency :
    tangle.Built ∧ tangle.successors 1 = [1, 0] ∧ (tangle.predecessors 1).count 1 = 1 ∧
      (tangle.predecessors 1).count 0 = 0 ∧ tangle.edgeCount = 3 ∧
      ∑ v ∈ Finset.range 3, (tangle.predecessors v).length = 3 ∧
      addEach 0 tangle [1, 2, 9, 0, 1] = (tangle.addEdges 0 [1, 2, 9, 0, 1], 2) := by
  have hbuilt : tangle.Built :=
    .addEdges 1 [1, 5, 1, 0] (.addEdge 0 2 (.addNode 9 (.addNode 8 (.addNode 7 .empty))))
  obtain ⟨_, _, hcount, _, hpreds, heach⟩ := hbuilt.adjacency
  exact ⟨hbuilt, by decide, (hcount 1 1).trans (by decide), (hcount 0 1).trans (by decide), rfl,
    hpreds.symm, heach 0 _⟩

end Bytecode.Digraph
