import Bytecode.Graph.Digraph
import Mathlib.Data.List.Nodup

/-!
# Adjacency of directed graphs

`Digraph.Built` holds of the graphs that can be made from the empty one by adding nodes and edges.
Every one of them is well formed: successors and predecessors are two views of one set of edges
between nodes. Adding one edge is adding a list of one, so only the bulk operation is analysed.
-/

namespace Bytecode.Digraph

variable {α : Type}

/-- The graphs that can be made. -/
inductive Built : Digraph α → Prop
  | empty : Built empty
  | addNode {g : Digraph α} (payload : α) : Built g → Built (g.addNode payload)
  | addEdge {g : Digraph α} (u v : Nat) : Built g → Built (g.addEdge u v)
  | addEdges {g : Digraph α} (u : Nat) (vs : List Nat) : Built g → Built (g.addEdges u vs)

/-- Successors and predecessors list the same edges, each once and between nodes. -/
structure WF (g : Digraph α) : Prop where
  succ_nodup : ∀ u, (g.successors u).Nodup
  pred_nodup : ∀ v, (g.predecessors v).Nodup
  succ_lt : ∀ u v, v ∈ g.successors u → v < g.size
  mem_preds : ∀ u v, u ∈ g.predecessors v ↔ v ∈ g.successors u

/-- Only nodes have successors. -/
theorem lt_of_mem_successors {g : Digraph α} {u v : Nat} (hv : v ∈ g.successors u) :
    u < g.size := by
  rw [size, ← g.succs_size]
  by_contra hu
  rw [successors, Array.getElem?_eq_none (by omega)] at hv
  simp at hv

/-! ### Adding nodes -/

private theorem getD_push_nil (rows : Array (List Nat)) (n : Nat) :
    (rows.push [])[n]?.getD [] = rows[n]?.getD [] := by
  rw [Array.getElem?_push]
  split
  · next h =>
    subst h
    simp
  · rfl

/-- A node added makes one node more. -/
@[simp] theorem size_addNode (g : Digraph α) (payload : α) :
    (g.addNode payload).size = g.size + 1 := by
  simp [size, addNode]

/-- A new node changes nobody's successors and has none. -/
@[simp] theorem successors_addNode (g : Digraph α) (payload : α) (n : Nat) :
    (g.addNode payload).successors n = g.successors n :=
  getD_push_nil g.succs n

/-- A new node changes nobody's predecessors and has none. -/
@[simp] theorem predecessors_addNode (g : Digraph α) (payload : α) (n : Nat) :
    (g.addNode payload).predecessors n = g.predecessors n :=
  getD_push_nil g.preds n

private theorem WF.addNode {g : Digraph α} (h : g.WF) (payload : α) : (g.addNode payload).WF where
  succ_nodup u := by simpa using h.succ_nodup u
  pred_nodup v := by simpa using h.pred_nodup v
  succ_lt u v hv := by
    rw [successors_addNode] at hv
    rw [size_addNode]
    exact Nat.lt_succ_of_lt (h.succ_lt u v hv)
  mem_preds u v := by simpa using h.mem_preds u v

/-! ### Adding edges -/

private theorem mem_newTargets (size : Nat) (known vs : List Nat) (v : Nat) :
    v ∈ newTargets size known vs ↔ v ∈ vs ∧ v < size ∧ v ∉ known := by
  induction vs generalizing known with
  | nil => simp [newTargets]
  | cons x rest ih =>
    simp only [newTargets]
    split
    · next h =>
      simp only [Bool.and_eq_true, decide_eq_true_eq, Bool.not_eq_true',
        List.contains_eq_mem, decide_eq_false_iff_not] at h
      rw [List.mem_cons, ih, List.mem_cons, List.mem_cons]
      by_cases hx : v = x
      · subst hx
        simp [h]
      · simp [hx]
    · next h =>
      simp only [Bool.and_eq_true, decide_eq_true_eq, Bool.not_eq_true',
        List.contains_eq_mem, decide_eq_false_iff_not] at h
      rw [ih, List.mem_cons]
      by_cases hx : v = x
      · subst hx
        simp only [true_or, true_and]
        exact ⟨fun hv ↦ hv.2, fun hv ↦ absurd hv h⟩
      · simp [hx]

private theorem nodup_newTargets (size : Nat) (known vs : List Nat) :
    (newTargets size known vs).Nodup := by
  induction vs generalizing known with
  | nil => exact List.nodup_nil
  | cons x rest ih =>
    simp only [newTargets]
    split
    · rw [List.nodup_cons]
      refine ⟨?_, ih _⟩
      rw [mem_newTargets]
      simp
    · exact ih _

/-- The new successors are the targets that are nodes and no successors yet. -/
theorem mem_newSuccessors (g : Digraph α) (u : Nat) (vs : List Nat) (v : Nat) :
    v ∈ g.newSuccessors u vs ↔ u < g.size ∧ v ∈ vs ∧ v < g.size ∧ v ∉ g.successors u := by
  rw [newSuccessors]
  split
  · next h => rw [mem_newTargets]; simp [h]
  · next h => simp [h]

private theorem nodup_newSuccessors (g : Digraph α) (u : Nat) (vs : List Nat) :
    (g.newSuccessors u vs).Nodup := by
  rw [newSuccessors]
  split
  · exact nodup_newTargets _ _ _
  · exact List.nodup_nil

/-- A single target is new exactly if the edge to it is accepted. -/
theorem newSuccessors_singleton (g : Digraph α) (u v : Nat) :
    g.newSuccessors u [v] = if g.accepts u v then [v] else [] := by
  by_cases hu : u < g.size
  · simp only [newSuccessors, accepts, hu, ↓reduceIte, newTargets, decide_true, Bool.true_and]
  · simp [newSuccessors, accepts, hu]

/-- Without a new successor the graph stays as it is. -/
theorem addEdges_eq_self {g : Digraph α} {u : Nat} {vs : List Nat}
    (h : g.newSuccessors u vs = []) : g.addEdges u vs = g := by
  have hrows : g.succs.modify u (· ++ []) = g.succs := by
    apply Array.ext_getElem?
    intro i
    rw [Array.getElem?_modify]
    split <;> simp
  simp only [addEdges, h, List.foldl_nil, List.length_nil, Nat.add_zero, hrows]

/-- One edge is added as a list of one. -/
theorem addEdge_eq_addEdges (g : Digraph α) (u v : Nat) : g.addEdge u v = g.addEdges u [v] := by
  have hnew := g.newSuccessors_singleton u v
  cases ha : g.accepts u v with
  | false =>
    rw [addEdges_eq_self (by simp [hnew, ha])]
    simp [addEdge, ha]
  | true =>
    rw [ha, if_pos rfl] at hnew
    simp only [addEdge, ha, ↓reduceIte, addEdges, hnew, List.foldl_cons, List.foldl_nil,
      List.length_singleton]

/-- Edges add no nodes. -/
@[simp] theorem size_addEdges (g : Digraph α) (u : Nat) (vs : List Nat) :
    (g.addEdges u vs).size = g.size := rfl

private theorem getD_pushPred (u v n : Nat) (preds : Array (List Nat)) (hv : v < preds.size) :
    (pushPred u preds v)[n]?.getD [] =
      if n = v then preds[n]?.getD [] ++ [u] else preds[n]?.getD [] := by
  rw [pushPred, Array.getElem?_modify]
  by_cases h : n = v
  · subst h
    simp [hv]
  · simp [h, Ne.symm h]

private theorem getD_foldl_pushPred (u n : Nat) (vs : List Nat) (preds : Array (List Nat))
    (hn : vs.Nodup) (hlt : ∀ v ∈ vs, v < preds.size) :
    (vs.foldl (pushPred u) preds)[n]?.getD [] =
      preds[n]?.getD [] ++ if n ∈ vs then [u] else [] := by
  induction vs generalizing preds with
  | nil => simp
  | cons v rest ih =>
    obtain ⟨hv, hr⟩ := List.nodup_cons.mp hn
    have hs : (pushPred u preds v).size = preds.size := by simp [pushPred]
    have hrest (x : Nat) (hx : x ∈ rest) : x < (pushPred u preds v).size := by
      rw [hs]
      exact hlt x (List.mem_cons_of_mem v hx)
    rw [List.foldl_cons, ih _ hr hrest, getD_pushPred u v n preds (hlt v List.mem_cons_self)]
    by_cases h : n = v
    · subst h
      simp [hv]
    · simp [h]

section

variable (g : Digraph α) (u : Nat) (vs : List Nat)

/-- The new successors come after the old ones. -/
theorem successors_addEdges (n : Nat) :
    (g.addEdges u vs).successors n =
      g.successors n ++ if n = u then g.newSuccessors u vs else [] := by
  simp only [successors, addEdges, Array.getElem?_modify]
  by_cases hn : n = u
  · subst hn
    by_cases hu : n < g.size
    · have hrow : n < g.succs.size := g.succs_size ▸ hu
      simp [hrow]
    · have hrow : g.succs[n]? = none :=
        Array.getElem?_eq_none (g.succs_size ▸ Nat.le_of_not_lt hu)
      simp [hrow, newSuccessors, hu]
  · simp [hn, Ne.symm hn]

/-- The source becomes the last predecessor of its new successors. -/
theorem predecessors_addEdges (n : Nat) :
    (g.addEdges u vs).predecessors n =
      g.predecessors n ++ if n ∈ g.newSuccessors u vs then [u] else [] := by
  simp only [predecessors, addEdges]
  apply getD_foldl_pushPred u n _ _ (nodup_newSuccessors g u vs)
  intro v hv
  rw [g.preds_size]
  exact ((mem_newSuccessors g u vs v).mp hv).2.2.1

end

private theorem WF.addEdges {g : Digraph α} (h : g.WF) (u : Nat) (vs : List Nat) :
    (g.addEdges u vs).WF where
  succ_nodup n := by
    rw [successors_addEdges]
    split
    · next hn =>
      subst hn
      apply (h.succ_nodup n).append (nodup_newSuccessors g n vs)
      intro v hv hv'
      exact ((mem_newSuccessors g n vs v).mp hv').2.2.2 hv
    · simpa using h.succ_nodup n
  pred_nodup n := by
    rw [predecessors_addEdges]
    split
    · next hn =>
      apply (h.pred_nodup n).append (List.nodup_singleton u)
      intro v hv hv'
      rw [List.mem_singleton] at hv'
      subst hv'
      exact ((mem_newSuccessors g v vs n).mp hn).2.2.2 ((h.mem_preds v n).mp hv)
    · simpa using h.pred_nodup n
  succ_lt n v hv := by
    rw [successors_addEdges, List.mem_append] at hv
    rcases hv with hv | hv
    · exact h.succ_lt n v hv
    · split at hv
      · exact ((mem_newSuccessors g u vs v).mp hv).2.2.1
      · simp at hv
  mem_preds m n := by
    rw [predecessors_addEdges, successors_addEdges, List.mem_append, List.mem_append,
      h.mem_preds]
    by_cases hm : m = u <;> by_cases hn : n ∈ g.newSuccessors u vs <;> simp [hm, hn]

/-- Every graph that can be made is well formed. -/
theorem Built.wf {g : Digraph α} (h : g.Built) : g.WF := by
  induction h with
  | empty => constructor <;> simp [Digraph.empty, size, successors, predecessors]
  | addNode payload _ ih => exact ih.addNode payload
  | addEdge u v _ ih => rw [addEdge_eq_addEdges]; exact ih.addEdges u [v]
  | addEdges u vs _ ih => exact ih.addEdges u vs

end Bytecode.Digraph
