import Bytecode.Proofs.Flow.BackEdges
import Bytecode.Proofs.Graph.NaturalLoops

/-!
# Natural loops of a function

Every header of a back edge has one loop, and the loops stand in the order of their headers. A loop
has its header and exactly the blocks that reach a latch without passing through the header, so it
is entered from outside by its header only, and its header dominates what the entry reaches of it.
-/

namespace Bytecode

namespace FlowGraph

variable {c : FlowGraph} {f : Func} {e : BackEdges} {l : NaturalLoop} {a b d : BlockId}
  {header k m n : Nat} {latches : List Nat}

/-- There is a path from `a` to `b` that does not meet `d`. -/
def ReachesAvoiding (c : FlowGraph) (d a b : BlockId) : Prop := ∃ p, c.Path a b p ∧ d ∉ p

/-- The entry reaches both blocks, and every path from there to `b` meets `a`. -/
structure Dominates (c : FlowGraph) (a b : BlockId) : Prop where
  reaches_left : c.Reaches c.entryBlock a
  reaches_right : c.Reaches c.entryBlock b
  mem_path : ∀ p, c.Path c.entryBlock b p → a ∈ p

private theorem exists_block (hn : n < c.graph.size) : ∃ b, c.block? n = some b :=
  ⟨_, Array.getElem?_eq_getElem hn⟩

private theorem Path.exists_nodes {p : List BlockId} (h : c.Path a b p) :
    ∃ m n, c.block? m = some a ∧ c.block? n = some b := by
  induction h with
  | single hb =>
    obtain ⟨n, hn⟩ := Array.mem_iff_getElem?.mp hb
    exact ⟨n, n, hn, hn⟩
  | cons he _ ih =>
    obtain ⟨m, _, hm, _⟩ := exists_nodes_of_mem_edges he
    obtain ⟨_, n, _, hn⟩ := ih
    exact ⟨m, n, hm, hn⟩

section

variable (hc : c.Depicts f)

include hc

private theorem Depicts.node?_eq_some_iff_block? : c.node? b = some n ↔ c.block? n = some b := by
  rw [hc.node?_eq_some_iff, hc.block?_eq]

private theorem Depicts.reachesAvoiding_iff (hk : c.block? k = some d) (hm : c.block? m = some a)
    (hn : c.block? n = some b) : c.ReachesAvoiding d a b ↔ c.graph.ReachesAvoiding k m n := by
  have hpaths := not_congr (hc.forall_mem_path_iff hm hn hk)
  simp only [not_forall, exists_prop] at hpaths
  exact hpaths

/-- Blocks dominate each other as their nodes do. -/
theorem Depicts.dominates_iff (hm : c.block? m = some a)
    (hn : c.block? n = some b) : c.Dominates a b ↔ c.graph.Dominates entry m n := by
  have hleft := hc.reaches_iff hc.block?_entry hm
  have hright := hc.reaches_iff hc.block?_entry hn
  have hpaths := hc.forall_mem_path_iff hc.block?_entry hn hm
  constructor
  · intro h
    exact ⟨hleft.mp h.reaches_left, hright.mp h.reaches_right, hpaths.mp h.mem_path⟩
  · intro h
    exact ⟨hleft.mpr h.reaches_left, hright.mpr h.reaches_right, hpaths.mpr h.mem_path⟩

end

/-! ### One loop for each header -/

/-- A loop has the latches of its header, and its depth counts the other loops that have the
header. -/
theorem exists_of_mem_loops (hl : l ∈ c.loops e) :
    e.byHeader[l.header]? = some l.latches ∧ l.depth = depthIn (c.loops e) l ∧
    ∃ n, c.node? l.header = some n ∧ l.body = Std.TreeSet.ofList
      ((c.graph.loopNodes n (l.latches.toList.filterMap c.node?)).filterMap c.block?) := by
  obtain ⟨flat, hflat, rfl⟩ := List.mem_map.mp hl
  obtain ⟨⟨b, latches⟩, hmem, hloop⟩ := List.mem_filterMap.mp hflat
  rw [loopOf?, Option.map_eq_some_iff] at hloop
  obtain ⟨n, hn, rfl⟩ := hloop
  refine ⟨Std.TreeMap.mem_toList_iff_getElem?_eq_some.mp hmem, ?_, n, hn, rfl⟩
  rw [loops, depthIn, depthIn, List.countP_map]
  rfl

/-- If all headers are blocks, then each has a loop. -/
theorem map_header_loops (h : ∀ b, e.isHeader b = true → ∃ n, c.node? b = some n) :
    (c.loops e).map NaturalLoop.header = e.headers := by
  have hheader : ∀ p ∈ e.byHeader.toList,
      (c.loopOf? p.1 p.2).map NaturalLoop.header = some p.1 := by
    intro p hp
    have hrow := Std.TreeMap.mem_toList_iff_getElem?_eq_some.mp hp
    have hmem : e.isHeader p.1 = true := by
      rw [BackEdges.isHeader, Std.TreeMap.contains_eq_isSome_getElem?, hrow, Option.isSome_some]
    obtain ⟨n, hn⟩ := h p.1 hmem
    rw [loopOf?, hn]
    rfl
  rw [loops, List.map_map, BackEdges.headers, ← Std.TreeMap.map_fst_toList_eq_keys]
  show (e.byHeader.toList.filterMap fun p ↦ c.loopOf? p.1 p.2).map NaturalLoop.header = _
  rw [List.map_filterMap, List.filterMap_congr hheader]
  exact congrFun List.filterMap_eq_map _

/-- Headers are listed in increasing order. -/
theorem pairwise_headers (e : BackEdges) : e.headers.Pairwise (· < ·) :=
  Std.TreeMap.ordered_keys.imp Nat.compare_eq_lt.mp

/-! ### Blocks and nodes of a loop -/

/-- The header and the latches of the loop are the given nodes, and its blocks are those of the
loop of these nodes. -/
structure Traces (c : FlowGraph) (l : NaturalLoop) (header : Nat) (latches : List Nat) : Prop where
  heads : c.graph.Heads entry header latches
  header_eq : c.block? header = some l.header
  mem_latches : ∀ u, u ∈ l.latches ↔ ∃ n ∈ latches, c.block? n = some u
  mem_body : ∀ b, b ∈ l.body ↔ ∃ n, c.graph.InLoop header latches n ∧ c.block? n = some b

/-- A loop has its header. -/
theorem Traces.header_mem_body (h : c.Traces l header latches) : l.header ∈ l.body :=
  (h.mem_body l.header).mpr ⟨header, .inl rfl, h.header_eq⟩

section

variable (hc : c.Depicts f)

include hc

/-- A block is in the loop as its node is. -/
theorem Traces.mem_body_iff (h : c.Traces l header latches) (hn : c.block? n = some b) :
    b ∈ l.body ↔ c.graph.InLoop header latches n := by
  rw [h.mem_body]
  constructor
  · rintro ⟨m, hm, hmb⟩
    exact hc.node_unique hmb hn ▸ hm
  · intro hin
    exact ⟨n, hin, hn⟩

/-- The body in terms of paths of blocks. -/
theorem Traces.mem_body_iff_reachesAvoiding (h : c.Traces l header latches) :
    b ∈ l.body ↔ b = l.header ∨ ∃ u, u ∈ l.latches ∧ c.ReachesAvoiding l.header b u := by
  constructor
  · intro hb
    obtain ⟨n, hin, hn⟩ := (h.mem_body b).mp hb
    rcases hin with rfl | ⟨k, hk, hreach⟩
    · exact .inl (Option.some.inj (hn.symm.trans h.header_eq))
    · obtain ⟨p, hp, _⟩ := id hreach
      obtain ⟨u, hu⟩ := exists_block hp.lt_right
      refine .inr ⟨u, (h.mem_latches u).mpr ⟨k, hk, hu⟩, ?_⟩
      exact (hc.reachesAvoiding_iff h.header_eq hn hu).mpr hreach
  · rintro (rfl | ⟨u, hu, hreach⟩)
    · exact h.header_mem_body
    · obtain ⟨k, hk, hku⟩ := (h.mem_latches u).mp hu
      obtain ⟨p, hp, _⟩ := id hreach
      obtain ⟨n, _, hn, _⟩ := hp.exists_nodes
      refine (h.mem_body b).mpr ⟨n, .inr ⟨k, hk, ?_⟩, hn⟩
      exact (hc.reachesAvoiding_iff h.header_eq hn hku).mp hreach

/-- Whatever the number of blocks, what is found are back edges. -/
theorem Depicts.exists_views :
    ∃ R, c.backEdges.Views R ∧ ∀ u v, R u v → c.IsBackEdge u v := by
  by_cases hsize : 2 ≤ c.blockCount
  · exact ⟨c.IsBackEdge, hc.views_backEdges hsize, fun _ _ ↦ id⟩
  · have hnone : c.backEdges = .empty := if_pos (by omega)
    exact ⟨fun _ _ ↦ False, hnone ▸ BackEdges.views_empty, fun _ _ ↦ False.elim⟩

/-- Every loop found is the loop of a header that dominates its latches. -/
theorem Depicts.exists_traces (hl : l ∈ c.loops c.backEdges) :
    ∃ header latches, c.Traces l header latches := by
  obtain ⟨hlatches, _, header, hheader, hbody⟩ := exists_of_mem_loops hl
  rw [hc.node?_eq_some_iff_block?] at hheader
  obtain ⟨R, hviews, hR⟩ := hc.exists_views
  have hback (u : BlockId) (hu : u ∈ l.latches) : c.IsBackEdge u l.header :=
    hR u l.header ((hviews.byHeader u l.header).mp ⟨l.latches, hlatches, hu⟩)
  have hmem (u : BlockId) : u ∈ l.latches ↔
      ∃ n ∈ l.latches.toList.filterMap c.node?, c.block? n = some u := by
    simp only [List.mem_filterMap, Std.TreeSet.mem_toList, hc.node?_eq_some_iff_block?]
    constructor
    · intro hu
      obtain ⟨n, _, hn, _⟩ := exists_nodes_of_mem_edges (hback u hu).edge
      exact ⟨n, ⟨u, hu, hn⟩, hn⟩
    · rintro ⟨n, ⟨u', hu', hn'⟩, hn⟩
      exact Option.some.inj (hn'.symm.trans hn) ▸ hu'
  have hnode (n : Nat) (hn : n ∈ l.latches.toList.filterMap c.node?) :
      header ∈ c.graph.successors n ∧ c.graph.Dominates entry header n := by
    obtain ⟨u, hu, hnode⟩ := List.mem_filterMap.mp hn
    rw [Std.TreeSet.mem_toList] at hu
    rw [hc.node?_eq_some_iff_block?] at hnode
    exact (hc.isBackEdge_iff hnode hheader).mp (hback u hu)
  refine ⟨header, _, ⟨?_, fun n hn ↦ (hnode n hn).1, fun n hn ↦ (hnode n hn).2⟩, hheader, hmem, ?_⟩
  · obtain ⟨u, hu⟩ := hviews.latches_nonempty l.header l.latches hlatches
    obtain ⟨n, hn, _⟩ := (hmem u).mp hu
    exact List.ne_nil_of_mem hn
  · intro b
    have hlt : header < c.graph.size := (Array.getElem?_eq_some_iff.mp hheader).1
    rw [hbody, Std.TreeSet.mem_ofList, List.contains_iff_mem, List.mem_filterMap]
    simp only [Digraph.mem_loopNodes_iff hc.built.wf hlt]

end

section

variable (hw : f.WF) (h : ofFunc f = .ok c)

include hw h

/-- The headers are the blocks to which back edges lead. -/
theorem mem_headers_iff : b ∈ c.backEdges.headers ↔ ∃ u, c.backEdges.contains u b = true := by
  obtain ⟨R, hviews, _⟩ := (depicts_of_ofFunc hw h).exists_views
  simp only [BackEdges.contains_iff, hviews.bySource, ← hviews.byHeader, BackEdges.headers,
    Std.TreeMap.mem_keys, Std.TreeMap.mem_iff_isSome_getElem?, Option.isSome_iff_exists]
  constructor
  · rintro ⟨s, hs⟩
    obtain ⟨u, hu⟩ := hviews.latches_nonempty b s hs
    exact ⟨u, s, hs, hu⟩
  · rintro ⟨u, s, hs, _⟩
    exact ⟨s, hs⟩

/-- There is one loop for every header, in their order. -/
theorem map_header_loops_backEdges :
    (c.loops c.backEdges).map NaturalLoop.header = c.backEdges.headers := by
  have hc := depicts_of_ofFunc hw h
  obtain ⟨R, hviews, hR⟩ := hc.exists_views
  apply map_header_loops
  intro b hb
  rw [BackEdges.isHeader, Std.TreeMap.contains_eq_isSome_getElem?, Option.isSome_iff_exists] at hb
  obtain ⟨s, hs⟩ := hb
  obtain ⟨u, hu⟩ := hviews.latches_nonempty b s hs
  have hback := hR u b ((hviews.byHeader u b).mp ⟨s, hs, hu⟩)
  obtain ⟨_, n, _, hn⟩ := exists_nodes_of_mem_edges hback.edge
  exact ⟨n, hc.node?_eq_some_iff_block?.mpr hn⟩

private theorem mem_latches_iff (hl : l ∈ c.loops c.backEdges) {u : BlockId} :
    u ∈ l.latches ↔ c.backEdges.contains u l.header = true := by
  obtain ⟨R, hviews, _⟩ := (depicts_of_ofFunc hw h).exists_views
  obtain ⟨hlatches, _⟩ := exists_of_mem_loops hl
  rw [BackEdges.contains_iff, hviews.bySource, ← hviews.byHeader, BackEdges.Relates, hlatches]
  simp

end

/-- For every flow graph there is one loop for each header of a back edge, in ascending order, with
the latches of that header. Its body is the header and exactly the blocks that reach a latch
without passing through the header. Edges enter the body from outside at the header only, and the
header dominates every block of the body that the entry reaches. -/
theorem loops_exact (hw : f.WF) (h : ofFunc f = .ok c) :
    (c.loops c.backEdges).map NaturalLoop.header = c.backEdges.headers ∧
    c.backEdges.headers.Pairwise (· < ·) ∧
    (∀ b, b ∈ c.backEdges.headers ↔ ∃ u, c.backEdges.contains u b = true) ∧
    ∀ l ∈ c.loops c.backEdges,
      (∀ u, u ∈ l.latches ↔ c.backEdges.contains u l.header = true) ∧
      (∀ b, b ∈ l.body ↔
        b = l.header ∨ ∃ u, u ∈ l.latches ∧ c.ReachesAvoiding l.header b u) ∧
      (∀ a b, (a, b) ∈ c.edges → a ∉ l.body → b ∈ l.body → b = l.header) ∧
      ∀ b, b ∈ l.body → c.Reaches c.entryBlock b → c.Dominates l.header b := by
  have hc := depicts_of_ofFunc hw h
  refine ⟨map_header_loops_backEdges hw h, pairwise_headers _, fun b ↦ mem_headers_iff hw h,
    fun l hl ↦ ?_⟩
  obtain ⟨header, latches, htraces⟩ := hc.exists_traces hl
  refine ⟨fun u ↦ mem_latches_iff hw h hl, fun b ↦ htraces.mem_body_iff_reachesAvoiding hc,
    fun a b hedge ha hb ↦ ?_, fun b hb hreach ↦ ?_⟩
  · obtain ⟨m, n, hm, hn⟩ := exists_nodes_of_mem_edges hedge
    have hin := (htraces.mem_body_iff hc hn).mp hb
    by_contra hne
    have hne' : n ≠ header := by
      rintro rfl
      exact hne (Option.some.inj (hn.symm.trans htraces.header_eq))
    exact ha ((htraces.mem_body_iff hc hm).mpr
      (hin.of_edge hne' ((hc.mem_edges hm hn).mp hedge)))
  · obtain ⟨n, hin, hn⟩ := (htraces.mem_body b).mp hb
    rw [hc.dominates_iff htraces.header_eq hn]
    exact hin.dominates htraces.heads ((hc.reaches_iff hc.block?_entry hn).mp hreach)

/-- A loop in a loop, after them a loop with two latches, and a block that leads into all of these
but that nothing enters. -/
def circuits : Func :=
  ((Draft.start "circuits" 0 0).declareAll
    [.block { id := 0, code := [.jump 1] },
      .block { id := 1, code := [.jump 2] },
      .block { id := 2, code := [.jump 3] },
      .block { id := 3, code := [.push .null, .branch 2 4] },
      .block { id := 4, code := [.push .null, .branch 1 5] },
      .block { id := 5, code := [.push .null, .branch 6 7] },
      .block { id := 6, code := [.jump 5] },
      .block { id := 7, code := [.push .null, .branch 5 8] },
      .block { id := 8, code := [.push .null, .ret] },
      .block { id := 9, code := [.push .null, .branch 3 6] }]).build

/-- In `circuits` the loop with two latches also has the block that nothing enters, from which a
latch is reached past the header. -/
theorem circuits_loops :
    circuits.WF ∧ ∃ c, ofFunc circuits = .ok c ∧ c.backEdges.headers = [1, 2, 5] ∧
      ∃ l ∈ c.loops c.backEdges, l.header = 5 ∧ l.latches.toList = [6, 7] ∧
        l.body.toList = [5, 6, 7, 9] ∧
        (∃ u, u ∈ l.latches ∧ c.ReachesAvoiding 5 9 u) ∧ ¬c.ReachesAvoiding 5 4 7 ∧
        c.Dominates 5 7 := by
  have hdrafted : circuits.Drafted := ⟨_, _, _, _, rfl⟩
  have hfound : (ofFunc circuits).toOption.map (fun c ↦ (c.loops c.backEdges).map
      fun l ↦ (l.header, l.latches.toList, l.body.toList)) =
      some [(1, [4], [1, 2, 3, 4, 9]), (2, [3], [2, 3, 9]), (5, [6, 7], [5, 6, 7, 9])] := by
    decide +kernel
  have hedges : (ofFunc circuits).toOption.map (fun c ↦ (c.entryBlock,
      [(0, 1), (1, 2), (2, 3), (3, 4), (4, 5), (5, 7)].all c.edges.contains)) =
        some (0, true) := by
    decide +kernel
  cases h : ofFunc circuits with
  | error fault => simp [h, Except.toOption] at hfound
  | ok c =>
    simp only [h, Except.toOption, Option.map_some, Option.some.injEq, Prod.mk.injEq,
      List.all_cons, List.all_nil, Bool.and_true, Bool.and_eq_true, List.contains_iff_mem]
      at hfound hedges
    obtain ⟨hentry, h01, h12, h23, h34, h45, h57⟩ := hedges
    simp only [List.map_eq_cons_iff, List.map_eq_nil_iff, Prod.mk.injEq] at hfound
    obtain ⟨A, _, hloops, ⟨hA, _⟩, B, _, rfl, ⟨hB, _⟩, l, _, rfl, ⟨hl, hlatches, hbody⟩, rfl⟩ :=
      hfound
    obtain ⟨hheaders, _, _, hspec⟩ := loops_exact hdrafted.wf h
    have hlmem : l ∈ c.loops c.backEdges := by simp [hloops]
    obtain ⟨_, hexact, _, hdom⟩ := hspec l hlmem
    rw [hl] at hexact hdom
    have hmem (b : BlockId) : b ∈ l.body ↔ b ∈ [5, 6, 7, 9] := by
      rw [← hbody, Std.TreeSet.mem_toList]
    have hlatch (u : BlockId) : u ∈ l.latches ↔ u ∈ [6, 7] := by
      rw [← hlatches, Std.TreeSet.mem_toList]
    have hreach : c.Reaches c.entryBlock 7 := by
      obtain ⟨m, n, hm, hn⟩ := exists_nodes_of_mem_edges h57
      rw [hentry]
      exact ⟨_, .cons h01 (.cons h12 (.cons h23 (.cons h34 (.cons h45 (.cons h57
        (.single (Array.mem_of_getElem? hn)))))))⟩
    refine ⟨hdrafted.wf, c, rfl, ?_, l, hlmem, hl, hlatches, hbody, ?_, fun hreach' ↦ ?_,
      hdom 7 ((hmem 7).mpr (by decide)) hreach⟩
    · rw [← hheaders, hloops, List.map_cons, List.map_cons, List.map_cons, List.map_nil, hA, hB,
        hl]
    · exact ((hexact 9).mp ((hmem 9).mpr (by decide))).resolve_left (by decide)
    · have hin := (hexact 4).mpr (.inr ⟨7, (hlatch 7).mpr (by decide), hreach'⟩)
      exact absurd ((hmem 4).mp hin) (by decide)

end FlowGraph

end Bytecode
