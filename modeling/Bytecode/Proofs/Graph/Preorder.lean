import Bytecode.Proofs.Graph.Dominance
import Bytecode.Proofs.Graph.Flooding

/-!
# Traversals and recursion

The textbook traversal is a recursion: visit a node, then each successor that was not visited
before, with everything below it, before the next one. The traversal by a stack visits the nodes in
the very same order, although its stack holds nodes that are visited from elsewhere before their
turn comes. So does the search that numbers nodes for the dominator tree, and a flood marks what
these visit.
-/

namespace Bytecode.Digraph

variable {α : Type} {g : Digraph α}

/-! ### Preorder by recursion -/

/-- How many nodes are not among those seen. -/
def unseen (g : Digraph α) (seen : List Nat) : Nat :=
  ((Finset.range g.size).filter (· ∉ seen)).card

private theorem unseen_append_le (g : Digraph α) (seen more : List Nat) :
    g.unseen (seen ++ more) ≤ g.unseen seen := by
  apply Finset.card_le_card
  intro n
  simp only [Finset.mem_filter, List.mem_append, not_or]
  tauto

private theorem unseen_append_lt {seen : List Nat} {n : Nat} (hn : n < g.size ∧ n ∉ seen) :
    g.unseen (seen ++ [n]) < g.unseen seen := by
  apply Finset.card_lt_card
  rw [Finset.ssubset_iff_of_subset]
  · exact ⟨n, by simp [hn], by simp⟩
  · intro m
    simp only [Finset.mem_filter, List.mem_append, not_or]
    tauto

/-- Descend into the listed nodes in turn, but for those seen before: mark the node as seen, give
it out, and descend into its successors. The result are the nodes in the order they are given
out. -/
def descend (g : Digraph α) (seen : List Nat) : List Nat → List Nat
  | [] => []
  | n :: rest =>
    if n < g.size ∧ n ∉ seen then
      let below := g.descend (seen ++ [n]) (g.successors n)
      n :: below ++ g.descend (seen ++ n :: below) rest
    else g.descend seen rest
termination_by ns => (g.unseen seen, ns.length)
decreasing_by
  · exact .left _ _ (unseen_append_lt ‹_›)
  · rcases Nat.lt_or_eq_of_le (g.unseen_append_le seen (n :: below)) with hlt | heq
    · exact .left _ _ hlt
    · rw [heq]
      exact .right _ (by simp)
  · exact .right _ (by simp)

section

variable {seen rest : List Nat} {n : Nat}

private theorem descend_cons_of_seen (hn : ¬(n < g.size ∧ n ∉ seen)) :
    g.descend seen (n :: rest) = g.descend seen rest := by
  rw [descend, if_neg hn]

private theorem descend_cons_of_new (hn : n < g.size ∧ n ∉ seen) :
    g.descend seen (n :: rest) = n :: g.descend (seen ++ [n]) (g.successors n) ++
      g.descend (seen ++ n :: g.descend (seen ++ [n]) (g.successors n)) rest := by
  rw [descend, if_pos hn]

/-- What the first nodes of a list lead to is seen when the turn of the others comes. -/
theorem descend_append (seen first rest : List Nat) :
    g.descend seen (first ++ rest) =
      g.descend seen first ++ g.descend (seen ++ g.descend seen first) rest := by
  induction first generalizing seen with
  | nil => simp [descend]
  | cons n first ih =>
    rw [List.cons_append]
    by_cases hn : n < g.size ∧ n ∉ seen
    · rw [descend_cons_of_new hn, descend_cons_of_new hn, ih]
      simp
    · rw [descend_cons_of_seen hn, descend_cons_of_seen hn, ih]

/-- To descend into a node is to take its successors before the rest of the list. -/
theorem descend_cons (hn : n < g.size ∧ n ∉ seen) :
    g.descend seen (n :: rest) = n :: g.descend (seen ++ [n]) (g.successors n ++ rest) := by
  rw [descend_cons_of_new hn, descend_append, List.append_assoc, List.singleton_append,
    List.cons_append]

/-- Nodes that are seen can be left out of a list beforehand. -/
theorem descend_filter {keeps : Nat → Bool} (ns rest : List Nat)
    (hdrop : ∀ n ∈ ns, keeps n = false → ¬(n < g.size ∧ n ∉ seen)) :
    g.descend seen (ns.filter keeps ++ rest) = g.descend seen (ns ++ rest) := by
  induction ns generalizing seen with
  | nil => rfl
  | cons n ns ih =>
    -- What is seen stays seen, whatever is given out before its turn comes.
    have hdrop' (more : List Nat) (m : Nat) (hm : m ∈ ns) (hk : keeps m = false) :
        ¬(m < g.size ∧ m ∉ seen ++ more) := by
      have := hdrop m (List.mem_cons_of_mem n hm) hk
      rw [List.mem_append]
      tauto
    cases hk : keeps n with
    | true =>
      rw [List.filter_cons_of_pos hk, List.cons_append, List.cons_append]
      by_cases hn : n < g.size ∧ n ∉ seen
      · rw [descend_cons_of_new hn, descend_cons_of_new hn, ih (hdrop' _)]
      · rw [descend_cons_of_seen hn, descend_cons_of_seen hn, ih (by simpa using hdrop' [])]
    | false =>
      rw [List.filter_cons_of_neg (by simp [hk]), List.cons_append,
        descend_cons_of_seen (hdrop n List.mem_cons_self hk), ih (by simpa using hdrop' [])]

end

/-! ### The traversal by a stack -/

/-- A traversal that starts with the given stack and marks comes to an end, with these visits. -/
inductive Traverses (g : Digraph α) : List Visit → Array Bool → List Visit → Prop
  | done {marks : Array Bool} : Traverses g [] marks []
  | skip {v : Visit} {stack visits : List Visit} {marks : Array Bool} :
      isMarked marks v.node = true → Traverses g stack marks visits →
      Traverses g (v :: stack) marks visits
  | visit {v : Visit} {stack visits : List Visit} {marks : Array Bool} :
      isMarked marks v.node = false →
      Traverses g (g.visitsFrom (marks.setIfInBounds v.node true) v.node ++ stack)
        (marks.setIfInBounds v.node true) visits →
      Traverses g (v :: stack) marks (v :: visits)

/-- With fuel for the stack and the open edges, the traversal comes to its end. -/
theorem traverses_traverse {fuel : Nat} {stack : List Visit} {marks : Array Bool}
    (hsize : marks.size = g.size) (hf : stack.length + g.openEdges marks ≤ fuel) :
    g.Traverses stack marks (g.traverse fuel stack marks) := by
  induction fuel generalizing stack marks with
  | zero =>
    obtain rfl : stack = [] := List.length_eq_zero_iff.mp (by omega)
    exact .done
  | succ fuel ih =>
    cases stack with
    | nil => exact .done
    | cons v stack =>
      rw [List.length_cons] at hf
      rw [traverse]
      split
      · next hm => exact .skip hm (ih hsize (by omega))
      · next hm =>
        have hm' : isMarked marks v.node = false := by simpa using hm
        have hopen := openEdges_set (hsize ▸ lt_of_unmarked hm) hm'
        have hlength := g.length_visitsFrom_le (marks.setIfInBounds v.node true) v.node
        refine .visit hm' (ih (by simpa using hsize) ?_)
        rw [List.length_append]
        omega

private theorem traverses_visits (g : Digraph α) (roots : List Nat) :
    g.Traverses (roots.map fun r ↦ ⟨r, r⟩) (Array.replicate g.size false) (g.visits roots) := by
  apply traverses_traverse (by simp)
  have := g.openEdges_le (Array.replicate g.size false)
  rw [List.length_map]
  omega

/-- A traversal gives out the nodes on its stack and what they lead to in preorder. -/
theorem Traverses.map_node {stack visits : List Visit} {marks : Array Bool} {seen : List Nat}
    (h : g.Traverses stack marks visits)
    (hmarks : ∀ n, isMarked marks n = false ↔ n < g.size ∧ n ∉ seen) :
    visits.map Visit.node = g.descend seen (stack.map Visit.node) := by
  induction h generalizing seen with
  | done => rw [List.map_nil, descend]
  | @skip v stack visits marks hm _ ih =>
    have hseen : ¬(v.node < g.size ∧ v.node ∉ seen) := by
      rw [← hmarks, hm]
      simp
    rw [List.map_cons, descend_cons_of_seen hseen, ih hmarks]
  | @visit v stack visits marks hm _ ih =>
    have hmarks' (n : Nat) : isMarked (marks.setIfInBounds v.node true) n = false ↔
        n < g.size ∧ n ∉ seen ++ [v.node] := by
      rw [← Bool.not_eq_true, isMarked_set, not_or, Bool.not_eq_true, hmarks, List.mem_append,
        List.mem_singleton]
      tauto
    -- The successors left out at the push are those that are seen by then.
    have hpushed : (g.visitsFrom (marks.setIfInBounds v.node true) v.node).map Visit.node =
        (g.successors v.node).filter fun s ↦ !isMarked (marks.setIfInBounds v.node true) s := by
      simp [visitsFrom, Function.comp_def]
    rw [List.map_cons, List.map_cons, descend_cons ((hmarks v.node).mp hm), ih hmarks',
      List.map_append, hpushed, descend_filter]
    intro n _ hk
    rw [← hmarks']
    simpa using hk

private theorem dfs_eq_descend (g : Digraph α) (start : Nat) :
    g.dfs start = g.descend [] [start] := by
  have hmarks (n : Nat) :
      isMarked (Array.replicate g.size false) n = false ↔ n < g.size ∧ n ∉ ([] : List Nat) := by
    rw [← Bool.not_eq_true, isMarked_replicate, not_le]
    simp
  exact (g.traverses_visits [start]).map_node hmarks

/-- Traversal by a stack comes to its end and is the recursive traversal in preorder, which is also
the order in which the dominator tree lists its nodes; a flood marks the nodes to which a path
leads from some root, which are those that the traversals from the roots visit. -/
theorem traversals_agree (hg : g.Built) (start : Nat) (roots : List Nat) :
    g.Traverses [⟨start, start⟩] (Array.replicate g.size false) (g.visits [start]) ∧
    g.dfs start = g.descend [] [start] ∧
    (g.dominators start).preorder = g.dfs start ∧
    (g.reachable roots).size = g.size ∧
    ∀ n, ((g.reachable roots)[n]? = some true ↔ ∃ r ∈ roots, r < g.size ∧ g.Reaches r n) ∧
      ((g.reachable roots)[n]? = some true ↔ ∃ r ∈ roots, r < g.size ∧ n ∈ g.dfs r) := by
  have hmarks (n : Nat) :
      (g.reachable roots)[n]? = some true ↔ ∃ r ∈ roots, r < g.size ∧ g.Reaches r n := by
    have hsome : (g.reachable roots)[n]? = some true ↔
        (g.reachable roots)[n]?.getD false = true := by
      cases (g.reachable roots)[n]? <;> simp
    have hstart (r : Nat) : r < g.size ∧ g.Reaches r n ↔ g.Reaches r n :=
      and_iff_right_of_imp fun ⟨_, hp⟩ ↦ hp.lt_left
    simp only [hsome, reachable_iff hg.wf, hstart]
  refine ⟨g.traverses_visits [start], g.dfs_eq_descend start, preorder_dominators,
    g.size_reachable roots, fun n ↦ ⟨hmarks n, ?_⟩⟩
  simp only [mem_dfs_iff]
  exact hmarks n

/-- The last node that the first one puts on the stack is visited from the second one before its
turn comes; one node enters the part that the first one reaches, and one stands alone. -/
def overtaking : Digraph Unit :=
  let nodes := (((((empty.addNode ()).addNode ()).addNode ()).addNode ()).addNode ()).addNode ()
  (((nodes.addEdges 0 [1, 2, 3]).addEdge 1 3).addEdges 3 [0, 3]).addEdge 4 2

private theorem overtaking_built : overtaking.Built :=
  .addEdge 4 2 <| .addEdges 3 [0, 3] <| .addEdge 1 3 <| .addEdges 0 [1, 2, 3] <| .addNode () <|
    .addNode () <| .addNode () <| .addNode () <| .addNode () <| .addNode () .empty

/-- In `overtaking` the search with a stack comes to a node before its turn, as the recursion does,
and a root out of range adds nothing to what is reached. -/
theorem overtaking_traversals :
    overtaking.Built ∧ overtaking.descend [] [0] = [0, 1, 3, 2] ∧
      (overtaking.dominators 0).preorder = [0, 1, 3, 2] ∧
      (∃ r ∈ [7, 4, 5], r < overtaking.size ∧ overtaking.Reaches r 2) ∧
      ¬∃ r ∈ [7, 4, 5], r < overtaking.size ∧ overtaking.Reaches r 3 := by
  obtain ⟨_, hdfs, hpre, _, hmarks⟩ := traversals_agree overtaking_built 0 [7, 4, 5]
  have horder : overtaking.dfs 0 = [0, 1, 3, 2] := by decide
  refine ⟨overtaking_built, hdfs ▸ horder, hpre.trans horder, (hmarks 2).1.mp (by decide), ?_⟩
  rw [← (hmarks 3).1]
  decide

end Bytecode.Digraph
