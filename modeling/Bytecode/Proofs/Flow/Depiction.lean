import Bytecode.Proofs.Flow.Edges
import Bytecode.Proofs.Func.Declarations
import Bytecode.Proofs.Graph.Insertion

/-!
# How faithful a flow graph is

A flow graph lists the successors of every block as its terminator has them, each at its first
occurrence, and the predecessors in layout order. A function that has no flow graph has a first
block in layout order whose successors cannot be told or are not all live, and its fault is that
block's.
-/

namespace Bytecode

namespace Func

variable {f : Func} {a b : BlockId}

instance decidableLeads (f : Func) (a b : BlockId) : Decidable (f.Leads a b) :=
  decidable_of_iff ((f.successors a).toOption.any (b ∈ ·) = true) <| by
    cases h : f.successors a <;> simp [Leads, h, Except.toOption]

/-- The fault of block `b` if it names `x`. -/
def targetFault? (f : Func) (b x : BlockId) : Option Fault :=
  if f.contains x then none else some (.invalidBlockReference b x)

/-- The fault of a block whose successors cannot be told, or of which one is not live. -/
def successorFault? (f : Func) (b : BlockId) : Option Fault :=
  match f.successors b with
  | .error fault => some fault
  | .ok ts => ts.findSome? (f.targetFault? b)

/-- A block has a fault if its successors cannot be told or are not all live. -/
theorem isSome_successorFault? : (f.successorFault? b).isSome = true ↔
    (∃ fault, f.successors b = .error fault) ∨ ∃ x, f.Leads b x ∧ f.contains x = false := by
  rw [successorFault?]
  cases h : f.successors b with
  | error fault => simp
  | ok ts => simp [Leads, h, targetFault?]

end Func

/-! ### Rows without repetitions -/

/-- Without known targets, each target in range is taken at its first occurrence. -/
theorem Digraph.newTargets_eq_eraseDups {size : Nat} {vs : List Nat} (h : ∀ v ∈ vs, v < size) :
    newTargets size [] vs = vs.eraseDups := by
  induction vs using List.reverseRecOn with
  | nil => rfl
  | append_singleton vs v ih =>
    have hv : v < size := h v (by simp)
    rw [newTargets_append, ih fun x hx ↦ h x (by simp [hx]), eraseDups_snoc]
    by_cases hmem : v ∈ vs <;> simp [newTargets, hv, hmem]

/-- A renaming that keeps elements apart keeps first occurrences. -/
theorem eraseDups_map_of_injOn {α β : Type} [DecidableEq α] [DecidableEq β] {k : α → β}
    {l : List α}
    (hk : ∀ x ∈ l, ∀ y ∈ l, k x = k y → x = y) : (l.map k).eraseDups = l.eraseDups.map k := by
  induction l using List.reverseRecOn with
  | nil => rfl
  | append_singleton l x ih =>
    have hmem : k x ∈ l.map k ↔ x ∈ l := by
      rw [List.mem_map]
      constructor
      · rintro ⟨y, hy, heq⟩
        exact hk y (by simp [hy]) x (by simp) heq ▸ hy
      · exact fun hx ↦ ⟨x, hx, rfl⟩
    rw [List.map_append, List.map_singleton, eraseDups_snoc, eraseDups_snoc, ih fun y hy z hz ↦
      hk y (by simp [hy]) z (by simp [hz])]
    by_cases hx : x ∈ l <;> simp [hmem, hx]

/-- What is picked out of a list by its places is what is picked out of the list. -/
theorem filterMap_zipIdx_filter {α : Type} (l : List α) (p : α → Bool) :
    (l.zipIdx.filter (p ·.1)).filterMap (fun x ↦ l[x.2]?) = l.filter p := by
  have hplace (x : α × Nat) (hx : x ∈ l.zipIdx.filter (p ·.1)) : l[x.2]? = some x.1 :=
    List.mem_zipIdx_iff_getElem?.mp (List.mem_of_mem_filter hx)
  calc
    _ = (l.zipIdx.filter (p ·.1)).filterMap (fun x ↦ some x.1) := List.filterMap_congr hplace
    _ = (l.zipIdx.filter (p ∘ Prod.fst)).map Prod.fst := congrFun List.filterMap_eq_map' _
    _ = l.filter p := by rw [← List.filter_map, List.zipIdx_map_fst]

namespace FlowGraph

open Bytecode.Digraph

variable {f : Func} {c : FlowGraph} {g : Digraph BlockId} {b : BlockId} {fault : Fault}

/-- The graph has rows to come, the first of them for node `k`, and the nodes they are for have no
successors yet. -/
structure Awaits (g : Digraph BlockId) (k : Nat) (rows : List (List Nat)) : Prop where
  built : g.Built
  vacant : ∀ n, k ≤ n → g.successors n = []
  targets : ∀ row ∈ rows, ∀ m ∈ row, m < g.size
  room : k + rows.length ≤ g.size

section

variable {row : List Nat} {rows : List (List Nat)} {k : Nat}

private theorem Awaits.newSuccessors_eq (h : Awaits g k (row :: rows)) :
    g.newSuccessors k row = row.eraseDups := by
  have hk : k < g.size := by
    have := h.room
    simp only [List.length_cons] at this
    omega
  rw [newSuccessors, if_pos hk, h.vacant k (Nat.le_refl k),
    newTargets_eq_eraseDups (h.targets row List.mem_cons_self)]

/-- A row gives its node successors and leaves the nodes after it without. -/
theorem Awaits.addEdges (h : Awaits g k (row :: rows)) :
    Awaits (g.addEdges k row) (k + 1) rows where
  built := .addEdges k row h.built
  vacant n hn := by
    have hne : n ≠ k := by omega
    rw [Digraph.successors_addEdges, if_neg hne, h.vacant n (by omega), List.append_nil]
  targets r hr := h.targets r (List.mem_cons_of_mem row hr)
  room := by
    have := h.room
    simp only [List.length_cons] at this
    rw [size_addEdges]
    omega

/-- In the end every node has the successors of its row, each at its first occurrence. -/
theorem Awaits.successors_foldl (h : Awaits g k rows) (n : Nat) :
    ((rows.zipIdx k).foldl addRow g).successors n =
      if n < k then g.successors n else (rows[n - k]?.getD []).eraseDups := by
  induction rows generalizing g k with
  | nil =>
    split
    · rfl
    · next hn => simpa using h.vacant n (Nat.le_of_not_lt hn)
  | cons row rows ih =>
    rw [List.zipIdx_cons, List.foldl_cons, addRow, ih h.addEdges,
      Digraph.successors_addEdges, h.newSuccessors_eq]
    rcases Nat.lt_trichotomy n k with hn | rfl | hn
    · simp [hn, Nat.lt_succ_of_lt hn, Nat.ne_of_lt hn]
    · simp [h.vacant n]
    · obtain ⟨m, rfl⟩ := Nat.exists_eq_add_of_lt hn
      have hindex : k + m + 1 - k = m + 1 := by omega
      have hindex' : k + m + 1 - (k + 1) = m := by omega
      rw [if_neg (by omega), if_neg (by omega), hindex, hindex', List.getElem?_cons_succ]

/-- In the end every node has as predecessors the nodes in whose rows it is, in order. -/
theorem Awaits.predecessors_foldl (h : Awaits g k rows) (n : Nat) :
    ((rows.zipIdx k).foldl addRow g).predecessors n =
      g.predecessors n ++ ((rows.zipIdx k).filter (n ∈ ·.1)).map Prod.snd := by
  induction rows generalizing g k with
  | nil => simp
  | cons row rows ih =>
    rw [List.zipIdx_cons, List.foldl_cons, addRow, ih h.addEdges,
      Digraph.predecessors_addEdges, h.newSuccessors_eq, List.append_assoc]
    by_cases hn : n ∈ row <;> simp [hn]

end

/-! ### The rows of a function -/

private theorem targetNode_eq_ok_iff {l : List BlockId} {x : BlockId} {n : Nat} :
    targetNode l b x = .ok n ↔ x ∈ l ∧ n = l.idxOf x := by
  have hindex : l.idxOf? x = some n ↔ x ∈ l ∧ n = l.idxOf x := by
    rw [List.idxOf?, List.findIdx?_eq_some_iff_findIdx_eq, ← List.idxOf_lt_length_iff, List.idxOf]
    constructor
    · rintro ⟨hn, rfl⟩
      exact ⟨hn, rfl⟩
    · rintro ⟨hn, rfl⟩
      exact ⟨hn, rfl⟩
  rw [← hindex, targetNode]
  split
  · next m hm => simp [hm]
  · next hnone => simp [hnone]

/-- The row of a block names its successors by their places. -/
theorem targetNodes_eq_ok_iff {l : List BlockId} {row : List Nat} :
    targetNodes f l b = .ok row ↔
      ∃ ts, f.successors b = .ok ts ∧ (∀ x ∈ ts, x ∈ l) ∧ row = ts.map l.idxOf := by
  rw [targetNodes]
  cases hts : f.successors b with
  | error fault => simp
  | ok ts =>
    have hplaces (hlive : ∀ x ∈ ts, x ∈ l) :
        ts.map (targetNode l b) = (ts.map l.idxOf).map Except.ok := by
      rw [List.map_map]
      apply List.map_congr_left
      intro x hx
      exact targetNode_eq_ok_iff.mpr ⟨hlive x hx, rfl⟩
    simp only [Except.ok.injEq, exists_eq_left', mapM_eq_ok_iff]
    constructor
    · intro hrow
      have hlive (x : BlockId) (hx : x ∈ ts) : x ∈ l := by
        have hmem := List.mem_map_of_mem (f := targetNode l b) hx
        rw [hrow, List.mem_map] at hmem
        obtain ⟨n, _, hn⟩ := hmem
        exact (targetNode_eq_ok_iff.mp hn.symm).1
      have hok : Function.Injective (Except.ok : Nat → Except Fault Nat) := fun _ _ ↦ Except.ok.inj
      exact ⟨hlive, hok.list_map (hrow.symm.trans (hplaces hlive))⟩
    · rintro ⟨hlive, rfl⟩
      exact hplaces hlive

/-! ### Functions without a flow graph -/

/-- Collecting stops at the first fault. -/
theorem mapM_eq_error_iff {α β ε : Type} {k : α → Except ε β} {fault? : α → Option ε} {l : List α}
    {e : ε} (h : ∀ a ∈ l, ∀ e, k a = .error e ↔ fault? a = some e) :
    l.mapM k = .error e ↔ l.findSome? fault? = some e := by
  induction l with
  | nil => simp [pure, Except.pure]
  | cons a l ih =>
    have hrest := ih fun x hx ↦ h x (List.mem_cons_of_mem a hx)
    rw [List.mapM_cons, List.findSome?_cons]
    cases hk : k a with
    | error e' =>
      rw [(h a List.mem_cons_self e').mp hk]
      simp [bind, Except.bind]
    | ok y =>
      have hnone : fault? a = none := by
        rw [Option.eq_none_iff_forall_ne_some]
        intro e' he'
        rw [(h a List.mem_cons_self e').mpr he'] at hk
        contradiction
      rw [hnone, ← hrest]
      cases l.mapM k <;> simp [bind, Except.bind, pure, Except.pure]

section

variable (hw : f.WF)

include hw

private theorem targetNodes_eq_error_iff :
    targetNodes f f.layout b = .error fault ↔ f.successorFault? b = some fault := by
  rw [targetNodes, Func.successorFault?]
  cases f.successors b with
  | error fault => simp
  | ok ts =>
    apply mapM_eq_error_iff
    intro x _ e
    rw [targetNode, Func.targetFault?]
    by_cases hx : f.contains x = true
    · obtain ⟨n, hn⟩ := hw.exists_index hx
      simp [(idxOf?_eq_some_iff_getElem? hw.nodup).mpr hn, hx]
    · have hnone : f.layout.idxOf? x = none := by
        rw [List.idxOf?_eq_none_iff, hw.mem_layout]
        exact hx
      simp [hnone, hx]

/-- A function has no flow graph if it has no blocks, or else by the fault of its first block that
has one. -/
theorem ofFunc_eq_error_iff : ofFunc f = .error fault ↔
    f.layout = [] ∧ fault = .emptyFunction ∨
      f.layout.findSome? f.successorFault? = some fault := by
  have hrows : f.layout.mapM (targetNodes f f.layout) = .error fault ↔
      f.layout.findSome? f.successorFault? = some fault :=
    mapM_eq_error_iff fun a _ _ ↦ targetNodes_eq_error_iff hw
  rw [ofFunc]
  split
  · next hempty =>
    rw [List.isEmpty_iff.mp hempty]
    simp [eq_comm]
  · next hempty =>
    have hne : f.layout ≠ [] := fun h ↦ hempty (List.isEmpty_iff.mpr h)
    simp only [hw.map_fst_blocks, hne, false_and, false_or, ← hrows]
    split
    · next hfault => simp [hfault]
    · next hok => simp [hok]

end

/-! ### Functions with a flow graph -/

/-- The graph has the blocks in layout order, the entry first. It lists the successors of a block
as the block has them, without later repetitions, and its predecessors once each in layout
order. -/
structure Portrays (c : FlowGraph) (f : Func) : Prop where
  blockCount : c.blockCount = f.layout.length
  block : ∀ n, c.block? n = f.layout[n]?
  node : ∀ b n, c.node? b = some n ↔ f.layout[n]? = some b
  entry : f.entry? = some c.entryBlock ∧ c.node? c.entryBlock = some entry
  successors : ∀ b ts, f.successors b = .ok ts → c.successorBlocks b = ts.eraseDups
  predecessors : ∀ b, c.predecessorBlocks b = f.layout.filter (f.Leads · b)

/-- The places of the successors of a block. -/
def rowOf (f : Func) (a : BlockId) : List Nat :=
  ((f.successors a).toOption.getD []).map f.layout.idxOf

private theorem rowOf_eq {a : BlockId} {ts : List BlockId} (h : f.successors a = .ok ts) :
    rowOf f a = ts.map f.layout.idxOf := by
  rw [rowOf, h]
  rfl

section

variable (hw : f.WF) (h : ofFunc f = .ok c)

include hw h

/-- All that the blocks of a function with a flow graph lead to is in the layout. -/
theorem exists_targets {a : BlockId} (ha : a ∈ f.layout) :
    ∃ ts, f.successors a = .ok ts ∧ ∀ x ∈ ts, x ∈ f.layout := by
  obtain ⟨rows, hrows, _⟩ := rows_of_ofFunc hw h
  have hmem := List.mem_map_of_mem (f := targetNodes f f.layout) ha
  rw [hrows, List.mem_map] at hmem
  obtain ⟨row, _, hrow⟩ := hmem
  obtain ⟨ts, hts, hlive, _⟩ := targetNodes_eq_ok_iff.mp hrow.symm
  exact ⟨ts, hts, hlive⟩

private theorem mem_layout_of_leads {a x : BlockId} (hax : f.Leads a x) : x ∈ f.layout := by
  obtain ⟨ts, hts, hx⟩ := hax
  have ha : a ∈ f.layout := (hw.mem_layout a).mpr (Func.contains_of_successors hts)
  obtain ⟨ts', hts', hlive⟩ := exists_targets hw h ha
  obtain rfl := Except.ok.inj (hts.symm.trans hts')
  exact hlive x hx

private theorem graph_eq :
    c.graph = (f.layout.map (rowOf f)).zipIdx.foldl addRow (nodesOnly f.layout) := by
  obtain ⟨rows, hrows, hc⟩ := rows_of_ofFunc hw h
  have hok : Function.Injective (Except.ok : List Nat → Except Fault (List Nat)) :=
    fun _ _ ↦ Except.ok.inj
  have hrow : f.layout.map (targetNodes f f.layout) = (f.layout.map (rowOf f)).map Except.ok := by
    rw [List.map_map]
    apply List.map_congr_left
    intro a ha
    obtain ⟨ts, hts, hlive⟩ := exists_targets hw h ha
    exact targetNodes_eq_ok_iff.mpr ⟨ts, hts, hlive, rowOf_eq hts⟩
  rw [hc, hok.list_map (hrows.symm.trans hrow)]

private theorem awaits_rows : Awaits (nodesOnly f.layout) 0 (f.layout.map (rowOf f)) where
  built := built_nodesOnly f.layout
  vacant n _ := successors_nodesOnly f.layout n
  targets row hrow m hm := by
    obtain ⟨a, ha, rfl⟩ := List.mem_map.mp hrow
    obtain ⟨ts, hts, hlive⟩ := exists_targets hw h ha
    rw [rowOf_eq hts, List.mem_map] at hm
    obtain ⟨x, hx, rfl⟩ := hm
    rw [size_nodesOnly]
    exact List.idxOf_lt_length_iff.mpr (hlive x hx)
  room := by rw [size_nodesOnly, List.length_map, Nat.zero_add]

private theorem successorBlocks_eq {ts : List BlockId} (hts : f.successors b = .ok ts) :
    c.successorBlocks b = ts.eraseDups := by
  have hc := depicts_of_ofFunc hw h
  have hb : b ∈ f.layout := (hw.mem_layout b).mpr (Func.contains_of_successors hts)
  obtain ⟨n, hn⟩ := List.getElem?_of_mem hb
  have hlive (x : BlockId) (hx : x ∈ ts) : x ∈ f.layout := mem_layout_of_leads hw h ⟨ts, hts, hx⟩
  have hplaces : (ts.map f.layout.idxOf).eraseDups = ts.eraseDups.map f.layout.idxOf :=
    eraseDups_map_of_injOn fun x hx y _ heq ↦ (List.idxOf_inj (hlive x hx)).mp heq
  have hblock (x : BlockId) (hx : x ∈ ts.eraseDups) :
      (c.block? ∘ f.layout.idxOf) x = some x := by
    rw [Function.comp, hc.block?_eq]
    exact List.getElem?_idxOf (hlive x (List.mem_eraseDups.mp hx))
  rw [successorBlocks, hc.node?_eq_some_iff.mpr hn, graph_eq hw h]
  simp only [(awaits_rows hw h).successors_foldl, Nat.not_lt_zero, ↓reduceIte, Nat.sub_zero,
    List.getElem?_map, hn, Option.map_some, Option.getD_some, rowOf_eq hts, hplaces,
    List.filterMap_map, List.filterMap_congr hblock, List.filterMap_some]

private theorem mem_rowOf_iff {a : BlockId} {n : Nat} (ha : a ∈ f.layout)
    (hn : f.layout[n]? = some b) : n ∈ rowOf f a ↔ f.Leads a b := by
  obtain ⟨ts, hts, hlive⟩ := exists_targets hw h ha
  simp only [rowOf_eq hts, List.mem_map, Func.Leads, hts, Except.ok.injEq, exists_eq_left']
  constructor
  · rintro ⟨x, hx, rfl⟩
    rw [List.getElem?_idxOf (hlive x hx), Option.some.injEq] at hn
    exact hn ▸ hx
  · intro hb
    exact ⟨b, hb, hw.index_unique (List.getElem?_idxOf (hlive b hb)) hn⟩

/-- The predecessors of a node are the places of the blocks that lead to its block. -/
theorem predecessors_graph {n : Nat} (hn : f.layout[n]? = some b) :
    c.graph.predecessors n = (f.layout.zipIdx.filter (f.Leads ·.1 b)).map Prod.snd := by
  have hleads : f.layout.zipIdx.filter ((n ∈ ·.1) ∘ Prod.map (rowOf f) id) =
      f.layout.zipIdx.filter (f.Leads ·.1 b) := by
    apply List.filter_congr
    intro x hx
    have hx' : x.1 ∈ f.layout := List.mem_of_getElem? (List.mem_zipIdx_iff_getElem?.mp hx)
    exact decide_eq_decide.mpr (mem_rowOf_iff hw h hx' hn)
  rw [graph_eq hw h, (awaits_rows hw h).predecessors_foldl, predecessors_nodesOnly,
    List.nil_append, List.zipIdx_map, List.filter_map, hleads, List.map_map]
  rfl

private theorem predecessorBlocks_eq (b : BlockId) :
    c.predecessorBlocks b = f.layout.filter (f.Leads · b) := by
  have hc := depicts_of_ofFunc hw h
  rw [predecessorBlocks]
  split
  · next n hn =>
    have hblock : c.block? ∘ Prod.snd = fun x : BlockId × Nat ↦ f.layout[x.2]? :=
      funext fun x ↦ hc.block?_eq x.2
    rw [predecessors_graph hw h (hc.node?_eq_some_iff.mp hn), List.filterMap_map, hblock]
    exact filterMap_zipIdx_filter f.layout (f.Leads · b)
  · next hnone =>
    rw [eq_comm, List.filter_eq_nil_iff]
    intro a _ hab
    obtain ⟨n, hn⟩ := List.getElem?_of_mem (mem_layout_of_leads hw h (of_decide_eq_true hab))
    rw [hc.node?_eq_some_iff.mpr hn] at hnone
    contradiction

private theorem portrays_of_ofFunc : c.Portrays f := by
  have hc := depicts_of_ofFunc hw h
  have hne : f.layout ≠ [] := by
    intro hempty
    rw [(ofFunc_eq_error_iff hw).mpr (.inl ⟨hempty, rfl⟩)] at h
    contradiction
  have hentry : f.entry? = some (f.layout.head hne) := List.head?_eq_some_head hne
  refine ⟨hc.size_eq, hc.block?_eq, fun b n ↦ hc.node?_eq_some_iff, ?_,
    fun b ts hts ↦ successorBlocks_eq hw h hts, predecessorBlocks_eq hw h⟩
  rw [hc.entryBlock_eq hentry, hc.node?_eq_some_iff]
  exact ⟨hentry, List.head?_eq_getElem? ▸ hentry⟩

end

/-- A flow graph is faithful to its function, and a valid function has one. A function has none
exactly if it has no blocks, or a block whose successors cannot be told or are not all live; the
fault is that of the first such block in layout order. -/
theorem ofFunc_faithful (hw : f.WF) :
    (∀ c, ofFunc f = .ok c → c.Portrays f) ∧
    (f.fault? = none → ∃ c, ofFunc f = .ok c) ∧
    ((∃ fault, ofFunc f = .error fault) ↔ f.layout = [] ∨ ∃ b ∈ f.layout,
      (∃ fault, f.successors b = .error fault) ∨ ∃ x, f.Leads b x ∧ f.contains x = false) ∧
    (∀ fault, ofFunc f = .error fault ↔ f.layout = [] ∧ fault = .emptyFunction ∨
      f.layout.findSome? f.successorFault? = some fault) := by
  refine ⟨fun c hc ↦ portrays_of_ofFunc hw hc, fun hf ↦ ?_, ?_, fun fault ↦ ofFunc_eq_error_iff hw⟩
  · exact exists_ofFunc (hw.fault?_eq_none_iff.mp hf).intact
  · simp only [ofFunc_eq_error_iff hw, exists_or, exists_and_left, exists_eq, and_true,
      ← Func.isSome_successorFault?, ← List.findSome?_isSome_iff, ← Option.isSome_iff_exists]

/-- A table with an entry twice and its default among its entries, and a branch whose arms are
one. -/
def signpost : Func :=
  ((Draft.start "signpost" 1 1).declareAll
    [.constant (.table (.ofList [(0, 3), (1, 5), (2, 3)])),
      .block { id := 4, code := [.loadReg 0, .jumpTable 0 5] },
      .block { id := 3, code := [.jump 5] },
      .block { id := 5, code := [.push .null, .branch 4 4] }]).build

/-- The flow graph of `signpost` lists each target once, and without one of its blocks there is no
flow graph but the fault of the table. -/
theorem signpost_faithful :
    signpost.WF ∧ signpost.fault? = none ∧ signpost.successors 4 = .ok [3, 5, 3, 5] ∧
      (∃ c, ofFunc signpost = .ok c ∧ c.block? entry = some 4 ∧ c.successorBlocks 4 = [3, 5] ∧
        c.predecessorBlocks 5 = [4, 3]) ∧
      (signpost.removeBlock 3).WF ∧
      ofFunc (signpost.removeBlock 3) = .error (.invalidBlockReference 4 3) := by
  have hdrafted : signpost.Drafted := ⟨_, _, _, _, rfl⟩
  have hf : signpost.fault? = none := by decide +kernel
  have hsuccs : signpost.successors 4 = .ok [3, 5, 3, 5] := by decide +kernel
  have hremoved := hdrafted.wf.removeBlock 3
  have hfault :
      (signpost.removeBlock 3).layout.findSome? (signpost.removeBlock 3).successorFault? =
        some (.invalidBlockReference 4 3) := by
    decide +kernel
  obtain ⟨hportrays, hexists, _, _⟩ := ofFunc_faithful hdrafted.wf
  obtain ⟨c, hc⟩ := hexists hf
  have hp := hportrays c hc
  exact ⟨hdrafted.wf, hf, hsuccs,
    ⟨c, hc, (hp.block entry).trans (by decide +kernel), hp.successors 4 _ hsuccs,
      (hp.predecessors 5).trans (by decide +kernel)⟩,
    hremoved, ((ofFunc_faithful hremoved).2.2.2 _).mpr (.inr hfault)⟩

end FlowGraph

end Bytecode
