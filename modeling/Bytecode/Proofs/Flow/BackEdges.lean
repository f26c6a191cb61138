import Bytecode.Flow.Loop
import Bytecode.Proofs.Flow.Edges
import Bytecode.Proofs.Graph.Dominance
import Mathlib.Data.List.Nodup
import Mathlib.Data.Set.Card

/-!
# Back edges

An edge leads back if its target is met on every path from the entry to its source. Paths of blocks
are the paths of nodes under their blocks' names, so the dominator tree decides which edges do. The
search for back edges finds each of them once and files it under its source and under its header;
the test whether there are any looks at all edges, but those that nothing reaches never lead back.
-/

namespace Bytecode

/-! ### Two views of one relation -/

namespace BackEdges

variable {m : Std.TreeMap BlockId (Std.TreeSet BlockId)} {e : BackEdges}
  {R : BlockId → BlockId → Prop} {a b x y u v : BlockId}

/-- The set of `a` has `b`. -/
def Relates (m : Std.TreeMap BlockId (Std.TreeSet BlockId)) (a b : BlockId) : Prop :=
  ∃ s, m[a]? = some s ∧ b ∈ s

private theorem getElem?_relate (m : Std.TreeMap BlockId (Std.TreeSet BlockId)) (a b x : BlockId) :
    (relate m a b)[x]? = if a = x then some ((m.getD a ∅).insert b) else m[x]? := by
  rw [relate, Std.TreeMap.getElem?_insert]
  simp

private theorem mem_getD_iff : b ∈ m.getD a ∅ ↔ Relates m a b := by
  rw [Relates, Std.TreeMap.getD_eq_getD_getElem?]
  cases m[a]? with
  | none => simp
  | some s => simp

private theorem relates_relate : Relates (relate m a b) x y ↔ x = a ∧ y = b ∨ Relates m x y := by
  rw [Relates, getElem?_relate]
  by_cases hx : a = x
  · subst hx
    simp only [↓reduceIte, Option.some.injEq, exists_eq_left', Std.TreeSet.mem_insert,
      Std.LawfulEqCmp.compare_eq_iff_eq, mem_getD_iff, true_and]
    rw [eq_comm]
  · rw [if_neg hx, Relates]
    simp [Ne.symm hx]

private theorem exists_mem_relate (hm : ∀ (a : BlockId) s, m[a]? = some s → ∃ b, b ∈ s)
    {s : Std.TreeSet BlockId} (hs : (relate m a b)[x]? = some s) : ∃ y, y ∈ s := by
  rw [getElem?_relate] at hs
  split at hs
  · rw [Option.some.injEq] at hs
    exact ⟨b, hs ▸ Std.TreeSet.mem_insert_self⟩
  · exact hm x s hs

/-- Both views have the pairs of a relation, and neither has an empty set. -/
structure Views (e : BackEdges) (R : BlockId → BlockId → Prop) : Prop where
  bySource : ∀ u v, Relates e.bySource u v ↔ R u v
  byHeader : ∀ u v, Relates e.byHeader v u ↔ R u v
  headers_nonempty : ∀ (u : BlockId) s, e.bySource[u]? = some s → ∃ v, v ∈ s
  latches_nonempty : ∀ (v : BlockId) s, e.byHeader[v]? = some s → ∃ u, u ∈ s

/-- Without back edges both views are empty. -/
theorem views_empty : empty.Views fun _ _ ↦ False := by
  constructor <;> simp [empty, Relates]

private theorem Views.insert (h : e.Views R) (source header : BlockId) :
    (e.insert source header).Views fun u v ↦ u = source ∧ v = header ∨ R u v where
  bySource u v := relates_relate.trans (or_congr_right (h.bySource u v))
  byHeader u v := relates_relate.trans (or_congr And.comm (h.byHeader u v))
  headers_nonempty _ _ := exists_mem_relate h.headers_nonempty
  latches_nonempty _ _ := exists_mem_relate h.latches_nonempty

private theorem Views.foldl_insert (h : e.Views R) (edges : List (BlockId × BlockId)) :
    (edges.foldl (fun e edge ↦ e.insert edge.1 edge.2) e).Views
      fun u v ↦ (u, v) ∈ edges ∨ R u v := by
  induction edges generalizing e R with
  | nil => simpa using h
  | cons edge edges ih =>
    have hrest := ih (h.insert edge.1 edge.2)
    have hpairs (u v : BlockId) : (u, v) ∈ edges ∨ u = edge.1 ∧ v = edge.2 ∨ R u v ↔
        (u, v) ∈ edge :: edges ∨ R u v := by
      rw [List.mem_cons, Prod.ext_iff, ← or_assoc, or_comm (a := (u, v) ∈ edges)]
    simpa only [List.foldl_cons, hpairs] using hrest

/-- The back edges of a list are its pairs, whichever way they are looked up. -/
theorem views_ofList (edges : List (BlockId × BlockId)) :
    (ofList edges).Views fun u v ↦ (u, v) ∈ edges := by
  simpa [ofList] using views_empty.foldl_insert edges

/-- The test for a back edge looks into the view by source. -/
theorem contains_iff : e.contains u v = true ↔ Relates e.bySource u v := by
  simp only [contains, targets?, Option.any_eq_true, Relates, Std.TreeSet.contains_iff_mem]

private theorem mem_toList : (u, v) ∈ e.toList ↔ Relates e.bySource u v := by
  simp only [toList, List.mem_flatMap, List.mem_map, Prod.mk.injEq, Prod.exists, Relates,
    Std.TreeMap.mem_toList_iff_getElem?_eq_some, Std.TreeSet.mem_toList]
  constructor
  · rintro ⟨_, s, hs, _, hv, rfl, rfl⟩
    exact ⟨s, hs, hv⟩
  · rintro ⟨s, hs, hv⟩
    exact ⟨u, s, hs, v, hv, rfl, rfl⟩

private theorem nodup_toList (e : BackEdges) : e.toList.Nodup := by
  rw [toList, List.nodup_flatMap]
  constructor
  · intro s _
    have hdistinct : s.2.toList.Nodup :=
      s.2.distinct_toList.imp fun h ↦ by simpa using h
    exact hdistinct.map fun _ _ h ↦ (Prod.mk.inj h).2
  · refine e.bySource.distinct_keys_toList.imp fun {s t} hne ↦ ?_
    rw [Function.onFun, List.disjoint_left]
    intro p hs ht
    obtain ⟨_, _, rfl⟩ := List.mem_map.mp hs
    obtain ⟨_, _, heq⟩ := List.mem_map.mp ht
    exact hne (by simp [(Prod.mk.inj heq).1])

/-- The size counts the pairs of the relation. -/
theorem Views.encard_eq (h : e.Views R) : {p : BlockId × BlockId | R p.1 p.2}.encard = e.size := by
  have hset : {p : BlockId × BlockId | R p.1 p.2} = ↑e.toList.toFinset := by
    ext ⟨u, v⟩
    simp [← h.bySource, mem_toList]
  rw [hset, Set.encard_coe_eq_coe_finsetCard, List.toFinset_card_of_nodup e.nodup_toList, size]

private theorem Views.isEmpty_eq_false_iff (h : e.Views R) : e.isEmpty = false ↔ ∃ u v, R u v := by
  rw [isEmpty, Std.TreeMap.isEmpty_eq_false_iff_exists_mem]
  constructor
  · rintro ⟨u, hu⟩
    obtain ⟨s, hs⟩ := Option.isSome_iff_exists.mp (Std.TreeMap.mem_iff_isSome_getElem?.mp hu)
    obtain ⟨v, hv⟩ := h.headers_nonempty u s hs
    exact ⟨u, v, (h.bySource u v).mp ⟨s, hs, hv⟩⟩
  · rintro ⟨u, v, huv⟩
    obtain ⟨s, hs, _⟩ := (h.bySource u v).mpr huv
    exact ⟨u, Std.TreeMap.mem_iff_isSome_getElem?.mpr (by rw [hs, Option.isSome_some])⟩

end BackEdges

namespace Digraph

variable {α : Type} {g : Digraph α}

private theorem mem_edges {u v : Nat} : (u, v) ∈ g.edges ↔ v ∈ g.successors u := by
  simp only [edges, List.mem_flatMap, List.mem_range, List.mem_map, Prod.mk.injEq]
  constructor
  · rintro ⟨_, _, _, hv, rfl, rfl⟩
    exact hv
  · intro hv
    exact ⟨u, lt_of_mem_successors hv, v, hv, rfl, rfl⟩

end Digraph

/-! ### Paths of blocks -/

namespace FlowGraph

variable {c : FlowGraph} {f : Func} {a b d u v : BlockId} {m n : Nat}

/-- The path from one block to another that meets the listed blocks. -/
inductive Path (c : FlowGraph) : BlockId → BlockId → List BlockId → Prop
  | single {b : BlockId} : b ∈ c.graph.payloads → Path c b b [b]
  | cons {a b d : BlockId} {p : List BlockId} :
      (a, b) ∈ c.edges → Path c b d p → Path c a d (a :: p)

/-- There is a path from `a` to `b`. -/
def Reaches (c : FlowGraph) (a b : BlockId) : Prop := ∃ p, c.Path a b p

/-- The edge starts at a block that the entry reaches, and every path from the entry to that block
meets the block where the edge ends. -/
structure IsBackEdge (c : FlowGraph) (u v : BlockId) : Prop where
  reached : c.Reaches c.entryBlock u
  edge : (u, v) ∈ c.edges
  mem_path : ∀ p, c.Path c.entryBlock u p → v ∈ p

section

variable (hc : c.Depicts f)

include hc

/-- No two nodes have one block. -/
theorem Depicts.node_unique (hm : c.block? m = some b) (hn : c.block? n = some b) : m = n := by
  rw [hc.block?_eq] at hm hn
  exact hc.wf.index_unique hm hn

/-- Edges between blocks are the edges between their nodes. -/
theorem Depicts.mem_edges (hm : c.block? m = some a) (hn : c.block? n = some b) :
    (a, b) ∈ c.edges ↔ n ∈ c.graph.successors m := by
  simp only [edges, List.mem_filterMap, Prod.exists, Digraph.mem_edges, Option.bind_eq_some_iff,
    Option.map_eq_some_iff, Prod.mk.injEq]
  constructor
  · rintro ⟨i, j, hij, _, hi, _, hj, rfl, rfl⟩
    rwa [hc.node_unique hm hi, hc.node_unique hn hj]
  · intro hmn
    exact ⟨m, n, hmn, a, hm, b, hn, rfl, rfl⟩

private theorem Depicts.exists_block_of_mem_successors (h : n ∈ c.graph.successors m) :
    ∃ a b, c.block? m = some a ∧ c.block? n = some b := by
  obtain ⟨a, b, ha, hb, _⟩ := (hc.mem_successors m n).mp h
  rw [← hc.block?_eq] at ha hb
  exact ⟨a, b, ha, hb⟩

omit hc in
/-- An edge between blocks has nodes for both. -/
theorem exists_nodes_of_mem_edges (h : (a, b) ∈ c.edges) :
    ∃ m n, c.block? m = some a ∧ c.block? n = some b := by
  obtain ⟨e, _, he⟩ := List.mem_filterMap.mp h
  obtain ⟨a', ha, he⟩ := Option.bind_eq_some_iff.mp he
  obtain ⟨b', hb, he⟩ := Option.map_eq_some_iff.mp he
  obtain ⟨rfl, rfl⟩ := Prod.mk.inj he
  exact ⟨e.1, e.2, ha, hb⟩

/-- A path of nodes is a path of their blocks. -/
theorem Depicts.exists_blocks {p : List Nat} (hp : c.graph.Path m n p) (hm : c.block? m = some a) :
    ∃ b q, c.block? n = some b ∧ c.Path a b q ∧ q.map some = p.map c.block? := by
  induction hp generalizing a with
  | single _ => exact ⟨a, [a], hm, .single (Array.mem_of_getElem? hm), by simp [hm]⟩
  | cons he _ ih =>
    obtain ⟨_, a', _, ha'⟩ := hc.exists_block_of_mem_successors he
    obtain ⟨b, q, hb, hq, hmap⟩ := ih ha'
    exact ⟨b, a :: q, hb, .cons ((hc.mem_edges hm ha').mpr he) hq, by simp [hm, hmap]⟩

/-- A path of blocks is the path of some nodes. -/
theorem Depicts.exists_nodes {q : List BlockId} (hq : c.Path a b q) (hm : c.block? m = some a) :
    ∃ n p, c.block? n = some b ∧ c.graph.Path m n p ∧ q.map some = p.map c.block? := by
  induction hq generalizing m with
  | single _ =>
    have hlt : m < c.graph.size := (Array.getElem?_eq_some_iff.mp hm).1
    exact ⟨m, [m], hm, .single hlt, by simp [hm]⟩
  | cons he _ ih =>
    obtain ⟨_, m', _, hm'⟩ := exists_nodes_of_mem_edges he
    obtain ⟨n, p, hn, hp, hmap⟩ := ih hm'
    exact ⟨n, m :: p, hn, .cons ((hc.mem_edges hm hm').mp he) hp, by simp [hm, hmap]⟩

/-- Blocks reach each other as their nodes do. -/
theorem Depicts.reaches_iff (hm : c.block? m = some a) (hn : c.block? n = some b) :
    c.Reaches a b ↔ c.graph.Reaches m n := by
  constructor
  · rintro ⟨q, hq⟩
    obtain ⟨n', p, hn', hp, _⟩ := hc.exists_nodes hq hm
    exact ⟨p, hc.node_unique hn hn' ▸ hp⟩
  · rintro ⟨p, hp⟩
    obtain ⟨b', q, hb', hq, _⟩ := hc.exists_blocks hp hm
    obtain rfl := Option.some.inj (hn.symm.trans hb')
    exact ⟨q, hq⟩

/-- A block is on all paths between two blocks if its node is on all paths between their nodes. -/
theorem Depicts.forall_mem_path_iff {k : Nat} (hm : c.block? m = some a) (hn : c.block? n = some b)
    (hk : c.block? k = some d) :
    (∀ q, c.Path a b q → d ∈ q) ↔ ∀ p, c.graph.Path m n p → k ∈ p := by
  have hmem {q : List BlockId} {p : List Nat} (hmap : q.map some = p.map c.block?) :
      d ∈ q ↔ k ∈ p := by
    have hsome : d ∈ q ↔ some d ∈ p.map c.block? := by rw [← hmap]; simp
    rw [hsome, List.mem_map]
    constructor
    · rintro ⟨k', hk', heq⟩
      exact hc.node_unique hk heq ▸ hk'
    · intro hkp
      exact ⟨k, hkp, hk⟩
  constructor
  · intro h p hp
    obtain ⟨b', q, hb', hq, hmap⟩ := hc.exists_blocks hp hm
    obtain rfl := Option.some.inj (hn.symm.trans hb')
    exact (hmem hmap).mp (h q hq)
  · intro h q hq
    obtain ⟨n', p, hn', hp, hmap⟩ := hc.exists_nodes hq hm
    obtain rfl := hc.node_unique hn hn'
    exact (hmem hmap).mpr (h p hp)

/-! ### The edges that lead back -/

/-- In terms of nodes, an edge leads back if its target dominates its source. -/
theorem Depicts.isBackEdge_iff (hm : c.block? m = some u) (hn : c.block? n = some v) :
    c.IsBackEdge u v ↔ n ∈ c.graph.successors m ∧ c.graph.Dominates entry n m := by
  have hreach := hc.reaches_iff hc.block?_entry hm
  have hedge := hc.mem_edges hm hn
  have hpaths := hc.forall_mem_path_iff hc.block?_entry hm hn
  constructor
  · intro h
    have hsucc := hedge.mp h.edge
    have hreached := hreach.mp h.reached
    exact ⟨hsucc, hreached.snoc hc.built.wf hsucc, hreached, hpaths.mp h.mem_path⟩
  · rintro ⟨hsucc, hdom⟩
    exact ⟨hreach.mpr hdom.reaches_right, hedge.mpr hsucc, hpaths.mpr hdom.mem_path⟩

/-- The search lists an edge exactly if it leads back. -/
theorem Depicts.mem_search_iff :
    (u, v) ∈ (c.graph.dfs entry).flatMap (c.backEdgesFrom c.dominators) ↔ c.IsBackEdge u v := by
  have hwf := hc.built.wf
  simp only [List.mem_flatMap, backEdgesFrom, List.mem_filterMap, List.mem_filter,
    Digraph.mem_dfs_iff, dominators, Digraph.dominates_dominators_iff hwf,
    Option.bind_eq_some_iff, Option.map_eq_some_iff, Prod.mk.injEq]
  constructor
  · rintro ⟨m, _, n, hmn, _, hm, _, hn, rfl, rfl⟩
    exact (hc.isBackEdge_iff hm hn).mpr hmn
  · intro h
    obtain ⟨m, n, hm, hn⟩ := exists_nodes_of_mem_edges h.edge
    have hmn := (hc.isBackEdge_iff hm hn).mp h
    exact ⟨m, hmn.2.reaches_right, n, hmn, u, hm, v, hn, rfl, rfl⟩

/-- With two blocks or more, the back edges found are those that lead back. -/
theorem Depicts.views_backEdges (hsize : 2 ≤ c.blockCount) : c.backEdges.Views c.IsBackEdge := by
  have hmany : ¬c.blockCount ≤ 1 := by omega
  have hviews :=
    BackEdges.views_ofList ((c.graph.dfs entry).flatMap (c.backEdgesFrom c.dominators))
  simp only [hc.mem_search_iff] at hviews
  rw [backEdges, if_neg hmany]
  exact hviews

/-- The test looks at all edges; those that nothing reaches have no dominators. -/
theorem Depicts.hasBackEdges_iff :
    c.hasBackEdges = true ↔ ∃ u v, c.IsBackEdge u v := by
  have hwf := hc.built.wf
  simp only [hasBackEdges, List.any_eq_true, Prod.exists, Digraph.mem_edges, dominators,
    Digraph.dominates_dominators_iff hwf]
  constructor
  · rintro ⟨m, n, hmn⟩
    obtain ⟨u, v, hm, hn⟩ := hc.exists_block_of_mem_successors hmn.1
    exact ⟨u, v, (hc.isBackEdge_iff hm hn).mpr hmn⟩
  · rintro ⟨u, v, h⟩
    obtain ⟨m, n, hm, hn⟩ := exists_nodes_of_mem_edges h.edge
    exact ⟨m, n, (hc.isBackEdge_iff hm hn).mp h⟩

end

/-- In a flow graph with at least two blocks, the back edges found are exactly the edges out of
reached blocks whose target is met on every path from the entry to their source. Latches by header
and headers by source are the same pairs, no set is empty, the size is the number of back edges,
and the graph is said to have some exactly if some are found. -/
theorem backEdges_exact (hw : f.WF) (h : ofFunc f = .ok c) (hsize : 2 ≤ c.blockCount) :
    (∀ u v, c.backEdges.contains u v = true ↔ c.IsBackEdge u v) ∧
    (∀ u v : BlockId, (∃ latches, c.backEdges.byHeader[v]? = some latches ∧ u ∈ latches) ↔
      ∃ headers, c.backEdges.bySource[u]? = some headers ∧ v ∈ headers) ∧
    (∀ (v : BlockId) latches, c.backEdges.byHeader[v]? = some latches → ∃ u, u ∈ latches) ∧
    (∀ (u : BlockId) headers, c.backEdges.bySource[u]? = some headers → ∃ v, v ∈ headers) ∧
    {p : BlockId × BlockId | c.IsBackEdge p.1 p.2}.encard = c.backEdges.size ∧
    (c.hasBackEdges = true ↔ c.backEdges.isEmpty = false) := by
  have hc := depicts_of_ofFunc hw h
  have hviews := hc.views_backEdges hsize
  refine ⟨fun u v ↦ ?_, fun u v ↦ ?_, hviews.latches_nonempty, hviews.headers_nonempty,
    hviews.encard_eq, ?_⟩
  · rw [BackEdges.contains_iff]
    exact hviews.bySource u v
  · exact (hviews.byHeader u v).trans (hviews.bySource u v).symm
  · rw [hc.hasBackEdges_iff, hviews.isEmpty_eq_false_iff]

/-- A loop with two latches, a block that leads to itself, two blocks that lead to each other and
are both entered from outside, and a loop that nothing enters. -/
def eddying : Func :=
  ((Draft.start "eddying" 0 0).declareAll
    [.block { id := 0, code := [.jump 1] },
      .block { id := 1, code := [.push .null, .branch 2 3] },
      .block { id := 2, code := [.jump 1] },
      .block { id := 3, code := [.push .null, .branch 1 4] },
      .block { id := 4, code := [.push .null, .branch 4 5] },
      .block { id := 5, code := [.push .null, .branch 6 7] },
      .block { id := 6, code := [.jump 7] },
      .block { id := 7, code := [.push .null, .branch 6 8] },
      .block { id := 8, code := [.push .null, .ret] },
      .block { id := 9, code := [.jump 9] }]).build

/-- Of all the cycles of `eddying`, the two latches of the loop and the block that leads to itself
give back edges, and only these. -/
theorem eddying_back_edges :
    eddying.WF ∧ ∃ c, ofFunc eddying = .ok c ∧ 2 ≤ c.blockCount ∧
      c.IsBackEdge 2 1 ∧ c.IsBackEdge 3 1 ∧ c.IsBackEdge 4 4 ∧
      ¬c.IsBackEdge 6 7 ∧ ¬c.IsBackEdge 7 6 ∧ ¬c.IsBackEdge 9 9 ∧
      {p : BlockId × BlockId | c.IsBackEdge p.1 p.2}.encard = 3 ∧ c.hasBackEdges = true := by
  have hdrafted : eddying.Drafted := ⟨_, _, _, _, rfl⟩
  have hw := hdrafted.wf
  have hfound : (ofFunc eddying).toOption.map (fun c ↦ (c.blockCount, c.backEdges.size,
      c.backEdges.isEmpty, [(2, 1), (3, 1), (4, 4), (6, 7), (7, 6), (9, 9)].map
        fun p ↦ c.backEdges.contains p.1 p.2)) =
      some (10, 3, false, [true, true, true, false, false, false]) := by
    decide +kernel
  cases h : ofFunc eddying with
  | error fault => simp [h, Except.toOption] at hfound
  | ok c =>
    simp only [h, Except.toOption, Option.map_some, Option.some.injEq, Prod.mk.injEq,
      List.map_cons, List.map_nil, List.cons.injEq, and_true] at hfound
    obtain ⟨hcount, hsize, hsome, h21, h31, h44, h67, h76, h99⟩ := hfound
    have hmany : 2 ≤ c.blockCount := by omega
    obtain ⟨hcontains, _, _, _, hcard, hhas⟩ := backEdges_exact hw h hmany
    have hnot (u v : BlockId) (hfalse : c.backEdges.contains u v = false) : ¬c.IsBackEdge u v := by
      rw [← hcontains, hfalse]
      exact Bool.false_ne_true
    rw [hsize] at hcard
    exact ⟨hw, c, rfl, hmany, (hcontains 2 1).mp h21, (hcontains 3 1).mp h31,
      (hcontains 4 4).mp h44, hnot 6 7 h67, hnot 7 6 h76, hnot 9 9 h99, hcard, hhas.mpr hsome⟩

end FlowGraph

end Bytecode
