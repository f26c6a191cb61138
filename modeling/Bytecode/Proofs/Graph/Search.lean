import Bytecode.Graph.Traversal
import Bytecode.Proofs.Graph.Paths
import Mathlib.Algebra.Order.BigOperators.Group.Finset
import Mathlib.Logic.Relation

/-!
# Depth-first search

The traversal visits exactly the nodes that its roots reach, each once; its fuel is enough because
every edge is put on the stack at most once. `Digraph.DepthFirstOrder` says in what order the nodes
reached from one root are visited: the parent of a new node lies above the node visited last, and
so does every other visited predecessor of it, above the parent.
-/

namespace Bytecode.Digraph

variable {α : Type} {g : Digraph α}

/-! ### What is visited -/

/-- A mark set is the only new one. -/
theorem isMarked_set (marks : Array Bool) (v n : Nat) :
    isMarked (marks.setIfInBounds v true) n = true ↔ n = v ∨ isMarked marks n = true := by
  simp only [isMarked]
  by_cases h : n = v
  · subst h
    rw [Array.getElem?_setIfInBounds_self]
    split <;> simp
  · rw [Array.getElem?_setIfInBounds_ne (Ne.symm h)]
    simp [h]

/-- What has no mark is in range. -/
theorem lt_of_unmarked {marks : Array Bool} {n : Nat} (h : ¬isMarked marks n = true) :
    n < marks.size := by
  by_contra hge
  exact h (by simp [isMarked, Nat.le_of_not_lt hge])

/-- A visit puts the successors without a mark on the stack, with itself as their parent. -/
theorem mem_visitsFrom {marks : Array Bool} {n : Nat} {e : Visit} :
    e ∈ g.visitsFrom marks n ↔
      e.parent = n ∧ e.node ∈ g.successors n ∧ isMarked marks e.node = false := by
  simp only [visitsFrom, List.mem_map, List.mem_filter, Bool.not_eq_true']
  constructor
  · rintro ⟨s, hs, rfl⟩
    exact ⟨rfl, hs⟩
  · rintro ⟨rfl, hs⟩
    exact ⟨e.node, hs, rfl⟩

/-- A visit puts no more on the stack than its node has successors. -/
theorem length_visitsFrom_le (g : Digraph α) (marks : Array Bool) (n : Nat) :
    (g.visitsFrom marks n).length ≤ (g.successors n).length := by
  rw [visitsFrom, List.length_map]
  exact List.length_filter_le _ _

/-- The edges that leave nodes without a mark: what may still be put on the stack. -/
def openEdges (g : Digraph α) (marks : Array Bool) : Nat :=
  ∑ n ∈ (Finset.range g.size).filter (isMarked marks · = false), (g.successors n).length

/-- Marking a node closes the edges that leave it. -/
theorem openEdges_set {marks : Array Bool} {v : Nat} (hv : v < g.size)
    (hm : isMarked marks v = false) :
    (g.successors v).length + g.openEdges (marks.setIfInBounds v true) = g.openEdges marks := by
  have hset : (Finset.range g.size).filter (isMarked (marks.setIfInBounds v true) · = false) =
      ((Finset.range g.size).filter (isMarked marks · = false)).erase v := by
    ext n
    simp only [Finset.mem_filter, Finset.mem_range, Finset.mem_erase, ← Bool.not_eq_true,
      isMarked_set, not_or]
    tauto
  rw [openEdges, hset, openEdges]
  exact Finset.add_sum_erase _ (fun n ↦ (g.successors n).length) (by simp [hv, hm])

/-- There are no more open edges than edges. -/
theorem openEdges_le (g : Digraph α) (marks : Array Bool) :
    g.openEdges marks ≤ g.edges.length := by
  have hlen : g.edges.length = ∑ n ∈ Finset.range g.size, (g.successors n).length := by
    simp only [edges, List.length_flatMap, List.length_map]
    rfl
  rw [hlen]
  exact Finset.sum_le_sum_of_subset (Finset.filter_subset _ _)

/-- With an empty stack the traversal is over. -/
@[simp] theorem traverse_nil (g : Digraph α) (fuel : Nat) (marks : Array Bool) :
    g.traverse fuel [] marks = [] := by
  cases fuel <;> rfl

-- Nodes that are visited are reached from the stack over nodes without a mark.
private theorem sound_traverse (fuel : Nat) (stack : List Visit) (marks : Array Bool)
    (hsize : marks.size = g.size) (v : Visit) (h : v ∈ g.traverse fuel stack marks) :
    ∃ e ∈ stack, ∃ p, g.Path e.node v.node p ∧ ∀ n ∈ p, isMarked marks n = false := by
  induction fuel generalizing stack marks with
  | zero => simp [traverse] at h
  | succ fuel ih =>
    cases stack with
    | nil => simp [traverse] at h
    | cons e stack =>
      simp only [traverse] at h
      split at h
      · obtain ⟨e', he', hp⟩ := ih stack marks hsize h
        exact ⟨e', List.mem_cons_of_mem e he', hp⟩
      · next hn =>
        rcases List.mem_cons.mp h with rfl | h
        · refine ⟨v, List.mem_cons_self, [v.node], .single (hsize ▸ lt_of_unmarked hn), ?_⟩
          simpa using hn
        · obtain ⟨e', he', p, hp, hfree⟩ := ih _ _ (by simpa using hsize) h
          have hfree' (n : Nat) (hmem : n ∈ p) : isMarked marks n = false := by
            have hm := hfree n hmem
            rw [← Bool.not_eq_true] at hm ⊢
            exact fun hc ↦ hm ((isMarked_set marks e.node n).mpr (.inr hc))
          rcases List.mem_append.mp he' with hf | hs
          · refine ⟨e, List.mem_cons_self, e.node :: p, .cons (mem_visitsFrom.mp hf).2.1 hp, ?_⟩
            exact List.forall_mem_cons.mpr ⟨by simpa using hn, hfree'⟩
          · exact ⟨e', List.mem_cons_of_mem e hs, p, hp, hfree'⟩

private theorem nodup_traverse (fuel : Nat) (stack : List Visit) (marks : Array Bool)
    (hsize : marks.size = g.size) :
    ((g.traverse fuel stack marks).map Visit.node).Nodup := by
  induction fuel generalizing stack marks with
  | zero => simp [traverse]
  | succ fuel ih =>
    cases stack with
    | nil => simp [traverse]
    | cons e stack =>
      simp only [traverse]
      split
      · exact ih stack marks hsize
      · have hsize' : (marks.setIfInBounds e.node true).size = g.size := by simpa using hsize
        rw [List.map_cons, List.nodup_cons]
        refine ⟨?_, ih _ _ hsize'⟩
        intro hm
        obtain ⟨v, hv, he⟩ := List.mem_map.mp hm
        obtain ⟨_, _, p, hp, hfree⟩ := sound_traverse fuel _ _ hsize' v hv
        have hn := hfree v.node hp.mem_right
        rw [← Bool.not_eq_true, isMarked_set] at hn
        exact hn (.inl he)

-- With fuel for the stack and for the open edges, nothing is left over: what is on the stack is
-- visited, and with a node its successors are, unless they had marks.
private theorem complete_traverse (fuel : Nat) (stack : List Visit) (marks : Array Bool)
    (hsize : marks.size = g.size)
    (hf : stack.length + g.openEdges marks ≤ fuel) :
    (∀ e ∈ stack, isMarked marks e.node = true ∨
      e.node ∈ (g.traverse fuel stack marks).map Visit.node) ∧
    ∀ u ∈ (g.traverse fuel stack marks).map Visit.node, ∀ v ∈ g.successors u,
      isMarked marks v = true ∨ v ∈ (g.traverse fuel stack marks).map Visit.node := by
  induction fuel generalizing stack marks with
  | zero =>
    obtain rfl : stack = [] := List.length_eq_zero_iff.mp (by omega)
    simp [traverse]
  | succ fuel ih =>
    cases stack with
    | nil => simp [traverse]
    | cons e stack =>
      simp only [traverse]
      rw [List.length_cons] at hf
      split
      · next hm =>
        obtain ⟨h1, h2⟩ := ih stack marks hsize (by omega)
        refine ⟨?_, h2⟩
        intro e' he'
        rcases List.mem_cons.mp he' with rfl | he'
        · exact .inl hm
        · exact h1 e' he'
      · next hm =>
        have hm' : isMarked marks e.node = false := by simpa using hm
        have hlt : e.node < g.size := hsize ▸ lt_of_unmarked hm
        have hopen := openEdges_set hlt hm'
        have hlength := g.length_visitsFrom_le (marks.setIfInBounds e.node true) e.node
        obtain ⟨h1, h2⟩ := ih (g.visitsFrom (marks.setIfInBounds e.node true) e.node ++ stack)
          (marks.setIfInBounds e.node true) (by simpa using hsize) (by
            rw [List.length_append]
            omega)
        generalize hrest : g.traverse fuel
          (g.visitsFrom (marks.setIfInBounds e.node true) e.node ++
          stack) (marks.setIfInBounds e.node true) = rest at h1 h2
        have hlift (n : Nat) (hn : isMarked (marks.setIfInBounds e.node true) n = true ∨
            n ∈ rest.map Visit.node) :
            isMarked marks n = true ∨ n ∈ (e :: rest).map Visit.node := by
          rw [isMarked_set] at hn
          rw [List.map_cons, List.mem_cons]
          tauto
        constructor
        · intro e' he'
          rcases List.mem_cons.mp he' with rfl | he'
          · exact .inr (by simp)
          · exact hlift _ (h1 e' (List.mem_append_right _ he'))
        · intro u hu v hv
          rw [List.map_cons, List.mem_cons] at hu
          rcases hu with rfl | hu
          · apply hlift
            by_cases hvm : isMarked (marks.setIfInBounds e.node true) v = true
            · exact .inl hvm
            · exact h1 ⟨v, e.node⟩ (List.mem_append_left _
                (mem_visitsFrom.mpr ⟨rfl, hv, by simpa using hvm⟩))
          · exact hlift v (h2 u hu v hv)

/-- At the start only what is out of range counts as marked. -/
theorem isMarked_replicate (n m : Nat) :
    isMarked (Array.replicate n false) m = true ↔ n ≤ m := by
  simp only [isMarked, Array.getElem?_replicate]
  split <;> simp <;> omega

/-- No node is visited twice. -/
theorem nodup_visits (g : Digraph α) (roots : List Nat) :
    ((g.visits roots).map Visit.node).Nodup :=
  nodup_traverse _ _ _ (by simp)

/-- With enough fuel, the nodes visited are those that the stack reaches over nodes without a
mark. -/
theorem mem_traverse_iff {fuel : Nat} {stack : List Visit} {marks : Array Bool}
    (hsize : marks.size = g.size) (hf : g.edges.length + stack.length ≤ fuel) {n : Nat} :
    n ∈ (g.traverse fuel stack marks).map Visit.node ↔
      ∃ e ∈ stack, ∃ p, g.Path e.node n p ∧ ∀ m ∈ p, isMarked marks m = false := by
  constructor
  · intro h
    obtain ⟨v, hv, rfl⟩ := List.mem_map.mp h
    exact sound_traverse fuel stack marks hsize v hv
  · rintro ⟨e, he, p, hp, hfree⟩
    have hopen := g.openEdges_le marks
    obtain ⟨hstack, hnext⟩ := complete_traverse fuel stack marks hsize (by omega)
    -- Along the path, each node is visited: it has no mark, and the one before it is visited.
    have hwalk {u v : Nat} {q : List Nat} (hq : g.Path u v q)
        (hq' : ∀ m ∈ q, isMarked marks m = false)
        (hu : isMarked marks u = true ∨ u ∈ (g.traverse fuel stack marks).map Visit.node) :
        v ∈ (g.traverse fuel stack marks).map Visit.node := by
      induction hq with
      | single _ => exact hu.resolve_left (by simp [hq' _ List.mem_cons_self])
      | cons hedge _ ih =>
        obtain ⟨hhead, htail⟩ := List.forall_mem_cons.mp hq'
        exact ih htail (hnext _ (hu.resolve_left (by simp [hhead])) _ hedge)
    exact hwalk hp hfree (hstack e he)

/-- The nodes visited are those that some root reaches. -/
theorem mem_visits_iff (roots : List Nat) (n : Nat) :
    n ∈ (g.visits roots).map Visit.node ↔ ∃ r ∈ roots, g.Reaches r n := by
  rw [visits, mem_traverse_iff (by simp) (by simp)]
  simp only [List.mem_map, exists_exists_and_eq_and]
  constructor
  · rintro ⟨r, hr, p, hp, _⟩
    exact ⟨r, hr, p, hp⟩
  · rintro ⟨r, hr, p, hp⟩
    refine ⟨r, hr, p, hp, fun m hm ↦ ?_⟩
    rw [← Bool.not_eq_true, isMarked_replicate]
    exact Nat.not_le_of_lt (hp.lt_of_mem hm)

/-- The search visits what its start reaches. -/
theorem mem_dfs_iff {start n : Nat} : n ∈ g.dfs start ↔ g.Reaches start n := by
  simp [dfs, mem_visits_iff]

/-- Marking the nodes of visits adds marks to these and to no others. -/
theorem isMarked_foldl_mark (visits : List Visit) (marks : Array Bool) (n : Nat) :
    isMarked (visits.foldl (fun marks v ↦ marks.setIfInBounds v.node true) marks) n = true ↔
      isMarked marks n = true ∨ n ∈ visits.map Visit.node := by
  induction visits generalizing marks with
  | nil => simp
  | cons v visits ih =>
    rw [List.foldl_cons, ih, isMarked_set, List.map_cons, List.mem_cons]
    tauto

/-- Marking keeps the number of marks. -/
theorem size_foldl_mark (visits : List Visit) (marks : Array Bool) :
    (visits.foldl (fun marks v ↦ marks.setIfInBounds v.node true) marks).size = marks.size := by
  induction visits generalizing marks with
  | nil => rfl
  | cons v visits ih => rw [List.foldl_cons, ih, Array.size_setIfInBounds]

/-! ### In what order -/

/-- `a` lies above `b` in the tree that the visits form. -/
def LiesAbove (visits : List Visit) : Nat → Nat → Prop :=
  Relation.ReflTransGen fun q v ↦ ⟨v, q⟩ ∈ visits

private theorem LiesAbove.mono {visits : List Visit} (e : Visit) {a b : Nat}
    (h : LiesAbove visits a b) : LiesAbove (e :: visits) a b :=
  Relation.ReflTransGen.mono (fun _ _ hm ↦ List.mem_cons_of_mem e hm) _ _ h

/-- Visits, the latest first, in the order of a depth-first search from one root. -/
inductive DepthFirstOrder (g : Digraph α) : List Visit → Prop
  | root (r : Nat) : DepthFirstOrder g [⟨r, r⟩]
  | visit {last e : Visit} {rest : List Visit} :
      DepthFirstOrder g (last :: rest) →
      e.node ∉ (last :: rest).map Visit.node →
      e.parent ∈ (last :: rest).map Visit.node →
      e.node ∈ g.successors e.parent →
      LiesAbove (last :: rest) e.parent last.node →
      (∀ u ∈ (last :: rest).map Visit.node, e.node ∈ g.successors u →
        LiesAbove (last :: rest) u e.parent) →
      DepthFirstOrder g (e :: last :: rest)

/-- The state of a search from one root after the visits `done`, of which `last` is the latest:
what the stack holds was put there from nodes above it, the lower the further up. -/
private structure Searching (g : Digraph α) (last : Visit) (rest : List Visit)
    (stack : List Visit) (marks : Array Bool) : Prop where
  order : DepthFirstOrder g (last :: rest)
  marked : ∀ n, n < g.size → (isMarked marks n = true ↔ n ∈ (last :: rest).map Visit.node)
  edge : ∀ e ∈ stack, e.parent ∈ (last :: rest).map Visit.node ∧ e.node ∈ g.successors e.parent
  above : ∀ e ∈ stack, LiesAbove (last :: rest) e.parent last.node
  sorted : stack.Pairwise fun e e' ↦ LiesAbove (last :: rest) e'.parent e.parent
  pending : ∀ u ∈ (last :: rest).map Visit.node, ∀ v ∈ g.successors u,
    v ∈ (last :: rest).map Visit.node ∨ ⟨v, u⟩ ∈ stack

private theorem Searching.skip (hg : g.WF) {last e : Visit} {rest stack : List Visit}
    {marks : Array Bool} (h : Searching g last rest (e :: stack) marks)
    (hm : isMarked marks e.node = true) : Searching g last rest stack marks where
  order := h.order
  marked := h.marked
  edge e' he' := h.edge e' (List.mem_cons_of_mem e he')
  above e' he' := h.above e' (List.mem_cons_of_mem e he')
  sorted := (List.pairwise_cons.mp h.sorted).2
  pending u hu v hv := by
    rcases h.pending u hu v hv with hd | hs
    · exact .inl hd
    · rcases List.mem_cons.mp hs with he | hs
      · subst he
        exact .inl ((h.marked v (hg.succ_lt u v hv)).mp hm)
      · exact .inr hs

private theorem Searching.visit (hg : g.WF) {last e : Visit} {rest stack : List Visit}
    {marks : Array Bool} (h : Searching g last rest (e :: stack) marks)
    (hm : ¬isMarked marks e.node = true) :
    Searching g e (last :: rest)
      (g.visitsFrom (marks.setIfInBounds e.node true) e.node ++ stack)
      (marks.setIfInBounds e.node true) := by
  obtain ⟨hparent, hedge⟩ := h.edge e List.mem_cons_self
  obtain ⟨hsorted, hstack⟩ := List.pairwise_cons.mp h.sorted
  have hnew : e.node ∉ (last :: rest).map Visit.node :=
    fun hd ↦ hm ((h.marked e.node (hg.succ_lt _ _ hedge)).mpr hd)
  -- Below `e` on the stack, parents lie above the parent of `e`, hence above `e`.
  have hbelow (e' : Visit) (he' : e' ∈ stack) : LiesAbove (e :: last :: rest) e'.parent e.node :=
    ((hsorted e' he').mono e).tail List.mem_cons_self
  have hmarked (n : Nat) (hn : n < g.size) : isMarked (marks.setIfInBounds e.node true) n = true ↔
      n ∈ (e :: last :: rest).map Visit.node := by
    rw [isMarked_set, h.marked n hn]
    simp only [List.map_cons, List.mem_cons]
  refine ⟨.visit h.order hnew hparent hedge (h.above e List.mem_cons_self) ?_, hmarked, ?_, ?_, ?_,
    ?_⟩
  · intro u hu hv
    rcases h.pending u hu e.node hv with hd | hs
    · exact absurd hd hnew
    · rcases List.mem_cons.mp hs with he | hs
      · rw [← he]
        exact .refl
      · exact hsorted _ hs
  · intro e' he'
    rcases List.mem_append.mp he' with hf | hs
    · obtain ⟨hpar, hx, _⟩ := mem_visitsFrom.mp hf
      rw [hpar]
      exact ⟨by simp, hx⟩
    · obtain ⟨h1, h2⟩ := h.edge e' (List.mem_cons_of_mem e hs)
      exact ⟨List.mem_cons_of_mem _ h1, h2⟩
  · intro e' he'
    rcases List.mem_append.mp he' with hf | hs
    · rw [(mem_visitsFrom.mp hf).1]
      exact .refl
    · exact hbelow e' hs
  · rw [List.pairwise_append]
    refine ⟨?_, hstack.imp fun hl ↦ hl.mono e, ?_⟩
    · rw [visitsFrom, List.pairwise_map]
      exact List.pairwise_of_forall fun _ _ ↦ .refl
    · intro e' hf e'' hs
      rw [(mem_visitsFrom.mp hf).1]
      exact hbelow e'' hs
  · intro u hu v hv
    rw [List.map_cons, List.mem_cons] at hu
    rcases hu with rfl | hu
    · by_cases hvm : isMarked (marks.setIfInBounds e.node true) v = true
      · exact .inl ((hmarked v (hg.succ_lt _ _ hv)).mp hvm)
      · exact .inr (List.mem_append_left _ (mem_visitsFrom.mpr ⟨rfl, hv, by simpa using hvm⟩))
    · rcases h.pending u hu v hv with hd | hs
      · exact .inl (List.mem_cons_of_mem _ hd)
      · rcases List.mem_cons.mp hs with he | hs
        · rw [← he]
          exact .inl (by simp)
        · exact .inr (List.mem_append_right _ hs)

private theorem Searching.order_traverse (hg : g.WF) (fuel : Nat) {last : Visit}
    {rest stack : List Visit} {marks : Array Bool} (h : Searching g last rest stack marks) :
    DepthFirstOrder g ((g.traverse fuel stack marks).reverse ++ last :: rest) := by
  induction fuel generalizing last rest stack marks with
  | zero => exact h.order
  | succ fuel ih =>
    cases stack with
    | nil => exact h.order
    | cons e stack =>
      simp only [traverse]
      split
      · next hm => exact ih (h.skip hg hm)
      · next hm =>
        rw [List.reverse_cons, List.append_assoc]
        exact ih (h.visit hg hm)

/-- The traversal from one node visits it first, as its own parent. -/
theorem visits_singleton {entry : Nat} (he : entry < g.size) :
    g.visits [entry] = ⟨entry, entry⟩ ::
      g.traverse g.edges.length
        (g.visitsFrom ((Array.replicate g.size false).setIfInBounds entry true) entry)
        ((Array.replicate g.size false).setIfInBounds entry true) := by
  have hm : isMarked (Array.replicate g.size false) entry = false := by
    rw [← Bool.not_eq_true, isMarked_replicate]
    omega
  simp only [visits, List.map_cons, List.map_nil, List.length_singleton, traverse, hm,
    Bool.false_eq_true, ↓reduceIte, List.append_nil]

/-- The traversal from one node is a depth-first search. -/
theorem depthFirstOrder_visits (hg : g.WF) {entry : Nat} (he : entry < g.size) :
    DepthFirstOrder g (g.visits [entry]).reverse := by
  have hmarked (n : Nat) (hn : n < g.size) :
      isMarked ((Array.replicate g.size false).setIfInBounds entry true) n = true ↔
        n ∈ ([⟨entry, entry⟩] : List Visit).map Visit.node := by
    rw [isMarked_set, isMarked_replicate]
    simp only [List.map_cons, List.map_nil, List.mem_singleton]
    omega
  have hstart : Searching g ⟨entry, entry⟩ []
      (g.visitsFrom ((Array.replicate g.size false).setIfInBounds entry true) entry)
      ((Array.replicate g.size false).setIfInBounds entry true) := by
    refine ⟨.root entry, hmarked, ?_, ?_, ?_, ?_⟩
    · intro e hm
      obtain ⟨hpar, hx, _⟩ := mem_visitsFrom.mp hm
      rw [hpar]
      exact ⟨by simp, hx⟩
    · intro e hm
      rw [(mem_visitsFrom.mp hm).1]
      exact .refl
    · rw [visitsFrom, List.pairwise_map]
      exact List.pairwise_of_forall fun _ _ ↦ .refl
    · intro u hu v hv
      obtain rfl : u = entry := by simpa using hu
      by_cases hvm : isMarked ((Array.replicate g.size false).setIfInBounds u true) v = true
      · exact .inl ((hmarked v (hg.succ_lt u v hv)).mp hvm)
      · exact .inr (mem_visitsFrom.mpr ⟨rfl, hv, by simpa using hvm⟩)
  rw [visits_singleton he, List.reverse_cons]
  exact hstart.order_traverse hg g.edges.length

end Bytecode.Digraph
