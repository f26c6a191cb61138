import Bytecode.Flow.FlowGraph
import Bytecode.Proofs.Func.Drafts
import Bytecode.Proofs.Graph.Flooding

/-!
# What a flow graph depicts

The nodes of the flow graph of a well-formed function are its blocks in layout order, its edges are
the ways that control passes from the end of one block to another, and the nodes it marks as live
are the blocks that the entry or an exported block leads to.
-/

namespace Bytecode

/-! ### Collecting rows -/

/-- Collecting succeeds exactly if it does for every element. -/
theorem mapM_eq_ok_iff {α β ε : Type} {k : α → Except ε β} {l : List α} {r : List β} :
    l.mapM k = .ok r ↔ l.map k = r.map Except.ok := by
  induction l generalizing r with
  | nil => cases r <;> simp [pure, Except.pure]
  | cons a l ih =>
    rw [List.mapM_cons, List.map_cons]
    cases hk : k a with
    | error e => cases r <;> simp [bind, Except.bind]
    | ok b =>
      cases hl : l.mapM k with
      | error e =>
        have hnot (r : List β) : l.map k ≠ r.map Except.ok := fun h ↦ by
          simp [ih.mpr h] at hl
        cases r with
        | nil => simp [bind, Except.bind]
        | cons b' r => simp [bind, Except.bind, hnot]
      | ok bs =>
        have hbs := ih.mp hl
        cases r with
        | nil => simp [bind, Except.bind, pure, Except.pure]
        | cons b' r =>
          rw [hbs]
          simp [bind, Except.bind, pure, Except.pure, List.map_inj_right]

private theorem exists_mapM_eq_ok {α β ε : Type} {k : α → Except ε β} {l : List α}
    (h : ∀ a ∈ l, ∃ b, k a = .ok b) : ∃ r, l.mapM k = .ok r := by
  simp only [mapM_eq_ok_iff]
  induction l with
  | nil => exact ⟨[], rfl⟩
  | cons a l ih =>
    obtain ⟨b, hb⟩ := h a List.mem_cons_self
    obtain ⟨r, hr⟩ := ih fun x hx ↦ h x (List.mem_cons_of_mem a hx)
    exact ⟨b :: r, by rw [List.map_cons, List.map_cons, hb, hr]⟩

namespace Digraph

variable {α : Type} {g : Digraph α}

private theorem toList_payloads_foldl_addNode (l : List α) (g : Digraph α) :
    (l.foldl addNode g).payloads.toList = g.payloads.toList ++ l := by
  induction l generalizing g with
  | nil => simp
  | cons a l ih => simp [ih, addNode]

private theorem successors_foldl_addNode (l : List α) (g : Digraph α) (n : Nat) :
    (l.foldl addNode g).successors n = g.successors n := by
  induction l generalizing g with
  | nil => rfl
  | cons a l ih => rw [List.foldl_cons, ih, successors_addNode]

private theorem Built.foldl_addNode (hg : g.Built) (l : List α) :
    (l.foldl Digraph.addNode g).Built := by
  induction l generalizing g with
  | nil => exact hg
  | cons a l ih => exact ih (.addNode a hg)

end Digraph

namespace FlowGraph

open Bytecode.Digraph

variable {f : Func} {c : FlowGraph} {g : Digraph BlockId}

private theorem payloads_foldl_addRow (rows : List (List Nat × Nat)) (g : Digraph BlockId) :
    (rows.foldl addRow g).payloads = g.payloads := by
  induction rows generalizing g with
  | nil => rfl
  | cons row rows ih => rw [List.foldl_cons, ih]; rfl

private theorem built_foldl_addRow (hg : g.Built) (rows : List (List Nat × Nat)) :
    (rows.foldl addRow g).Built := by
  induction rows generalizing g with
  | nil => exact hg
  | cons row rows ih => exact ih (.addEdges row.2 row.1 hg)

private theorem mem_successors_foldl_addRow (hg : g.Built) (rows : List (List Nat × Nat))
    (n m : Nat) : m ∈ (rows.foldl addRow g).successors n ↔
      m ∈ g.successors n ∨ ∃ row, (row, n) ∈ rows ∧ m ∈ row ∧ n < g.size ∧ m < g.size := by
  induction rows generalizing g with
  | nil => simp
  | cons row rows ih =>
    obtain ⟨vs, u⟩ := row
    have hrow : addRow g (vs, u) = g.addEdges u vs := rfl
    rw [List.foldl_cons, hrow, ih (.addEdges u vs hg), size_addEdges,
      Digraph.successors_addEdges _ u vs n, List.mem_append]
    by_cases hn : n = u
    · subst hn
      simp only [↓reduceIte, mem_newSuccessors, List.mem_cons, Prod.mk.injEq, and_true]
      grind
    · simp [hn]

/-! ### Nodes and edges -/

/-- The function is well formed and has a block, and the graph has its blocks as nodes and their
successors as edges. -/
structure Depicts (c : FlowGraph) (f : Func) : Prop where
  wf : f.WF
  nonempty : f.layout ≠ []
  built : c.graph.Built
  payloads : c.graph.payloads.toList = f.layout
  mem_successors : ∀ n m, m ∈ c.graph.successors n ↔
    ∃ a b, f.layout[n]? = some a ∧ f.layout[m]? = some b ∧ f.Leads a b
  mem_exported : ∀ n, n ∈ c.exported ↔ ∃ b, f.layout[n]? = some b ∧ f.IsExported b

/-- In a list without repetition, the index found is the only place of the element. -/
theorem idxOf?_eq_some_iff_getElem? {l : List BlockId} (hl : l.Nodup) {b : BlockId}
    {n : Nat} : l.idxOf? b = some n ↔ l[n]? = some b := by
  rw [List.idxOf?_eq_some_iff]
  constructor
  · rintro ⟨h, hb, _⟩
    rw [List.getElem?_eq_getElem h, hb]
  · intro h
    obtain ⟨hn, hb⟩ := List.getElem?_eq_some_iff.mp h
    refine ⟨hn, hb, fun j hj hjb ↦ ?_⟩
    have := hl.getElem_inj_iff.mp (hjb.trans hb.symm)
    omega

private theorem mem_targetNodes (hw : f.WF) {a : BlockId} {row : List Nat}
    (h : targetNodes f f.layout a = .ok row) (m : Nat) :
    m ∈ row ↔ ∃ b, f.layout[m]? = some b ∧ f.Leads a b := by
  have htarget (b : BlockId) : targetNode f.layout a b = .ok m ↔ f.layout[m]? = some b := by
    rw [← idxOf?_eq_some_iff_getElem? hw.nodup, targetNode]
    cases f.layout.idxOf? b <;> simp
  rw [targetNodes] at h
  split at h
  · contradiction
  · next ts hts =>
    have hmem : m ∈ row ↔ Except.ok m ∈ row.map (Except.ok : Nat → Except Fault Nat) := by simp
    rw [hmem, ← mapM_eq_ok_iff.mp h, List.mem_map]
    simp only [htarget, Func.Leads, hts, Except.ok.injEq, exists_eq_left', and_comm]

private theorem mem_exportedNodes (hw : f.WF) (n : Nat) :
    n ∈ exportedNodes f.blocks ↔ ∃ b, f.layout[n]? = some b ∧ f.IsExported b := by
  have hlayout : f.layout[n]? = f.blocks[n]?.map Prod.fst := by
    rw [← hw.map_fst_blocks, List.getElem?_map]
  simp only [exportedNodes, List.mem_map, List.mem_filter, Prod.exists, exists_eq_right,
    List.mk_mem_zipIdx_iff_getElem?, hlayout, Option.map_eq_some_iff]
  constructor
  · rintro ⟨b, B, hB, hexp⟩
    exact ⟨b, ⟨b, B, hB, rfl⟩, B, hw.mem_blocks.mp (List.mem_of_getElem? hB), hexp⟩
  · rintro ⟨b, ⟨_, B, hB, rfl⟩, B', hB', hexp⟩
    obtain rfl := Option.some.inj ((hw.mem_blocks.mp (List.mem_of_getElem? hB)).symm.trans hB')
    exact ⟨_, B, hB, hexp⟩

/-- A flow graph is made from one row of nodes for each block. -/
theorem rows_of_ofFunc (hw : f.WF) (h : ofFunc f = .ok c) :
    ∃ rows : List (List Nat), f.layout.map (targetNodes f f.layout) = rows.map Except.ok ∧
      c = ⟨rows.zipIdx.foldl addRow (nodesOnly f.layout), exportedNodes f.blocks⟩ := by
  rw [ofFunc] at h
  split at h
  · contradiction
  · simp only [hw.map_fst_blocks] at h
    split at h
    · contradiction
    · next rows hrows => exact ⟨rows, mapM_eq_ok_iff.mp hrows, (Except.ok.inj h).symm⟩

/-- A graph without edges is made by adding nodes. -/
theorem built_nodesOnly (blocks : List BlockId) : (nodesOnly blocks).Built :=
  Built.empty.foldl_addNode blocks

private theorem payloads_nodesOnly (blocks : List BlockId) :
    (nodesOnly blocks).payloads.toList = blocks := by
  rw [nodesOnly, toList_payloads_foldl_addNode]
  rfl

/-- There is a node for every block. -/
theorem size_nodesOnly (blocks : List BlockId) : (nodesOnly blocks).size = blocks.length := by
  rw [size, ← Array.length_toList, payloads_nodesOnly]

/-- Without edges there are no successors. -/
theorem successors_nodesOnly (blocks : List BlockId) (n : Nat) :
    (nodesOnly blocks).successors n = [] := by
  rw [nodesOnly, successors_foldl_addNode]
  simp [Digraph.empty, successors]

/-- Without edges there are no predecessors. -/
theorem predecessors_nodesOnly (blocks : List BlockId) (n : Nat) :
    (nodesOnly blocks).predecessors n = [] := by
  rw [List.eq_nil_iff_forall_not_mem]
  intro m hm
  rw [(built_nodesOnly blocks).wf.mem_preds, successors_nodesOnly] at hm
  contradiction

private theorem layout_ne_nil_of_ofFunc (h : ofFunc f = .ok c) : f.layout ≠ [] := by
  rw [ofFunc] at h
  split at h
  · contradiction
  · next hne => exact fun hnil ↦ hne (List.isEmpty_iff.mpr hnil)

/-- The flow graph of a well-formed function depicts it. -/
theorem depicts_of_ofFunc (hw : f.WF) (h : ofFunc f = .ok c) : c.Depicts f := by
  have hne := layout_ne_nil_of_ofFunc h
  obtain ⟨rows, hrows, rfl⟩ := rows_of_ofFunc hw h
  have hnodes := built_nodesOnly f.layout
  refine ⟨hw, hne, built_foldl_addRow hnodes _, ?_, fun n m ↦ ?_, mem_exportedNodes hw⟩
  · rw [payloads_foldl_addRow, payloads_nodesOnly]
  · have hrows' : f.layout[n]?.map (targetNodes f f.layout) = rows[n]?.map Except.ok := by
      rw [← List.getElem?_map, ← List.getElem?_map, hrows]
    simp only [mem_successors_foldl_addRow hnodes, size_nodesOnly, successors_nodesOnly,
      List.not_mem_nil, false_or, List.mk_mem_zipIdx_iff_getElem?]
    constructor
    · rintro ⟨row, hrow, hm, _⟩
      rw [hrow, Option.map_some, Option.map_eq_some_iff] at hrows'
      obtain ⟨a, ha, hrow'⟩ := hrows'
      obtain ⟨b, hb, hab⟩ := (mem_targetNodes hw hrow' m).mp hm
      exact ⟨a, b, ha, hb, hab⟩
    · rintro ⟨a, b, ha, hb, hab⟩
      rw [ha, Option.map_some, eq_comm, Option.map_eq_some_iff] at hrows'
      obtain ⟨row, hrow, hrow'⟩ := hrows'
      exact ⟨row, hrow, (mem_targetNodes hw hrow'.symm m).mpr ⟨b, hb, hab⟩,
        (List.getElem?_eq_some_iff.mp ha).1, (List.getElem?_eq_some_iff.mp hb).1⟩

/-- A function has a flow graph only if all its blocks have successors. -/
theorem exists_successors_of_ofFunc (hw : f.WF) (h : ofFunc f = .ok c) {b : BlockId}
    (hb : f.contains b = true) : ∃ ts, f.successors b = .ok ts := by
  obtain ⟨rows, hrows, _⟩ := rows_of_ofFunc hw h
  have hmem := List.mem_map_of_mem (f := targetNodes f f.layout) ((hw.mem_layout b).mpr hb)
  rw [hrows, List.mem_map] at hmem
  obtain ⟨row, _, hrow⟩ := hmem
  rw [targetNodes] at hrow
  split at hrow
  · contradiction
  · next ts hts => exact ⟨ts, hts⟩

/-- An intact function has a flow graph. -/
theorem exists_ofFunc (hf : f.Intact) : ∃ c, ofFunc f = .ok c := by
  have hrows : ∃ rows, f.layout.mapM (targetNodes f f.layout) = .ok rows := by
    apply exists_mapM_eq_ok
    intro a ha
    obtain ⟨ts, hts⟩ := hf.successors a ((hf.wf.mem_layout a).mp ha)
    rw [targetNodes, hts]
    apply exists_mapM_eq_ok
    intro b hb
    obtain ⟨n, hn⟩ := hf.wf.exists_index (hf.leads a b ⟨ts, hts, hb⟩)
    rw [targetNode, (idxOf?_eq_some_iff_getElem? hf.wf.nodup).mpr hn]
    exact ⟨n, rfl⟩
  obtain ⟨rows, hrows⟩ := hrows
  have hne : f.layout.isEmpty = false := List.isEmpty_eq_false_iff.mpr hf.nonempty
  simp only [ofFunc, hne, Bool.false_eq_true, ↓reduceIte, hf.wf.map_fst_blocks, hrows]
  exact ⟨_, rfl⟩

section

variable (hc : c.Depicts f) {b x : BlockId} {n : Nat}

include hc

/-- There are as many nodes as the layout has blocks. -/
theorem Depicts.size_eq : c.graph.size = f.layout.length := by
  rw [size, ← Array.length_toList, hc.payloads]

/-- The block of a node is the one at its position in the layout. -/
theorem Depicts.block?_eq (n : Nat) : c.block? n = f.layout[n]? := by
  rw [block?, payload?, ← hc.payloads, Array.getElem?_toList]

/-- The first block is the entry of the function. -/
theorem Depicts.entryBlock_eq (he : f.entry? = some b) : c.entryBlock = b := by
  rw [ Func.entry?, List.head?_eq_getElem?] at he
  rw [entryBlock, hc.block?_eq, entry, he, Option.getD_some]

/-- The entry node has the entry block. -/
theorem Depicts.block?_entry : c.block? entry = some c.entryBlock := by
  have hfirst : f.layout[0]? = some (f.layout.head hc.nonempty) := by
    rw [← List.head?_eq_getElem?, List.head?_eq_some_head hc.nonempty]
  rw [entryBlock, hc.block?_eq, entry, hfirst, Option.getD_some]

/-- The node of a block is its position in the layout. -/
theorem Depicts.node?_eq_some_iff : c.node? b = some n ↔ f.layout[n]? = some b := by
  have h : c.graph.payloads.idxOf? b = f.layout.idxOf? b := by
    rw [← hc.payloads, ← List.idxOf?_toArray, Array.toArray_toList]
  rw [node?, h, idxOf?_eq_some_iff_getElem? hc.wf.nodup]

/-- The predecessors of a live block are the blocks that lead to it. -/
theorem Depicts.mem_predecessorBlocks (hb : f.contains b = true) :
    x ∈ c.predecessorBlocks b ↔ f.Leads x b := by
  obtain ⟨n, hn⟩ := hc.wf.exists_index hb
  simp only [predecessorBlocks, hc.node?_eq_some_iff.mpr hn, List.mem_filterMap,
    hc.built.wf.mem_preds, hc.mem_successors, hc.block?_eq]
  constructor
  · rintro ⟨m, ⟨a, b', ha, hb', hab⟩, hx⟩
    obtain rfl := Option.some.inj (hn.symm.trans hb')
    obtain rfl := Option.some.inj (ha.symm.trans hx)
    exact hab
  · intro hx
    obtain ⟨m, hm⟩ := hc.wf.exists_index (Func.contains_of_leads hx)
    exact ⟨m, ⟨x, b, hm, hn, hx⟩, hm⟩

/-- No block is listed as a predecessor twice. -/
theorem Depicts.nodup_predecessorBlocks (b : BlockId) :
    (c.predecessorBlocks b).Nodup := by
  rw [predecessorBlocks]
  split
  · next n _ =>
    apply (hc.built.wf.pred_nodup n).filterMap
    intro i j x hi hj
    rw [Option.mem_def, hc.block?_eq] at hi hj
    exact hc.wf.index_unique hi hj
  · exact List.nodup_nil

end

end FlowGraph

/-! ### Live blocks -/

/-- The entry or an exported block leads to the block. -/
inductive Func.Live (f : Func) : BlockId → Prop
  | entry {b : BlockId} : f.entry? = some b → Live f b
  | exported {b : BlockId} : f.IsExported b → Live f b
  | leads {a b : BlockId} : Live f a → f.Leads a b → Live f b

/-- What the entry or an exported block leads to is there. -/
theorem Func.Live.contains {f : Func} (hi : f.Intact) {b : BlockId} (h : f.Live b) :
    f.contains b = true := by
  cases h with
  | entry he => exact hi.wf.contains_entry he
  | exported hb => exact hb.contains
  | leads _ hab => exact hi.leads _ _ hab

namespace FlowGraph

variable {f : Func} {c : FlowGraph}

/-- The nodes reached from the entry and the exported nodes are those of live blocks. -/
theorem Depicts.live_iff (hc : c.Depicts f) (hi : f.Intact) {b : BlockId} {n : Nat}
    (hn : f.layout[n]? = some b) : c.live[n]?.getD false = true ↔ f.Live b := by
  obtain ⟨e, he⟩ := hi.exists_entry
  have h0 : f.layout[0]? = some e := by rw [← List.head?_eq_getElem?]; exact he
  have hlt {m : Nat} {x : BlockId} (hm : f.layout[m]? = some x) : m < c.graph.size := by
    rw [hc.size_eq]
    exact (List.getElem?_eq_some_iff.mp hm).1
  rw [live, Digraph.reachable_iff hc.built.wf]
  constructor
  · rintro ⟨r, hr, hreach⟩
    -- Liveness holds at the roots and passes along edges.
    have hlive : ∃ x, f.layout[n]? = some x ∧ f.Live x := by
      apply hreach.induct
      · rcases List.mem_cons.mp hr with rfl | hr
        · exact ⟨e, h0, .entry he⟩
        · obtain ⟨x, hx, hexp⟩ := (hc.mem_exported r).mp hr
          exact ⟨x, hx, .exported hexp⟩
      · rintro i j ⟨x, hx, hlive⟩ hj
        obtain ⟨a, y, ha, hy, hay⟩ := (hc.mem_successors i j).mp hj
        obtain rfl := Option.some.inj (hx.symm.trans ha)
        exact ⟨y, hy, .leads hlive hay⟩
    obtain ⟨x, hx, hlive⟩ := hlive
    obtain rfl := Option.some.inj (hn.symm.trans hx)
    exact hlive
  · intro h
    induction h generalizing n with
    | entry hb =>
      obtain rfl := Option.some.inj (he.symm.trans hb)
      obtain rfl := hi.wf.index_unique h0 hn
      exact ⟨0, .head _, .refl (hlt h0)⟩
    | exported hb => exact ⟨n, .tail _ ((hc.mem_exported n).mpr ⟨_, hn, hb⟩), .refl (hlt hn)⟩
    | @leads a b ha hab ih =>
      obtain ⟨m, hm⟩ := hi.wf.exists_index (ha.contains hi)
      obtain ⟨r, hr, hreach⟩ := ih hm
      exact ⟨r, hr, hreach.snoc hc.built.wf ((hc.mem_successors m n).mpr ⟨a, b, hm, hn, hab⟩)⟩

/-- The blocks marked as live are those that are. -/
theorem Depicts.isLive_iff (hc : c.Depicts f) (hi : f.Intact) {b : BlockId} :
    c.isLive b = true ↔ f.Live b := by
  rw [isLive, Option.any_eq_true]
  constructor
  · rintro ⟨n, hn, hlive⟩
    exact (hc.live_iff hi (hc.node?_eq_some_iff.mp hn)).mp hlive
  · intro hb
    obtain ⟨n, hn⟩ := hi.wf.exists_index (hb.contains hi)
    exact ⟨n, hc.node?_eq_some_iff.mpr hn, (hc.live_iff hi hn).mpr hb⟩

end FlowGraph

end Bytecode
