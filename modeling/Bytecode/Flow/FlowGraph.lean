import Bytecode.Func
import Bytecode.Graph.Dominators
import Bytecode.Graph.Traversal

/-!
# Flow graphs

The flow graph of a function has a node for every block, in layout order, and an edge for every
successor. Handlers are not edges; the blocks they name are exported and count as roots of their
own.
-/

namespace Bytecode

/-- The blocks of a function as a directed graph. Node `0` is the entry. -/
structure FlowGraph where
  graph : Digraph BlockId
  /-- The nodes of the exported blocks, in order. -/
  exported : List Nat

namespace FlowGraph

/-- The node of a block, given the blocks in layout order. -/
def targetNode (blocks : List BlockId) (id target : BlockId) : Except Fault Nat :=
  match blocks.idxOf? target with
  | some n => .ok n
  | none => .error (.invalidBlockReference id target)

/-- The nodes that block `id` leads to. -/
def targetNodes (f : Func) (blocks : List BlockId) (id : BlockId) : Except Fault (List Nat) :=
  match f.successors id with
  | .error fault => .error fault
  | .ok targets => targets.mapM (targetNode blocks id)

/-- A graph with the given payloads and no edges. -/
def nodesOnly (blocks : List BlockId) : Digraph BlockId :=
  blocks.foldl Digraph.addNode Digraph.empty

/-- Add the edges of one node. -/
def addRow (g : Digraph BlockId) (row : List Nat × Nat) : Digraph BlockId :=
  g.addEdges row.2 row.1

/-- The nodes of the exported blocks. -/
def exportedNodes (blocks : List (BlockId × Block)) : List Nat :=
  (blocks.zipIdx.filter fun b => b.1.2.exported).map Prod.snd

/-- The flow graph of a function. It fails with the fault of the first block in layout order whose
successors cannot be told or are not all live. -/
def ofFunc (f : Func) : Except Fault FlowGraph :=
  if f.layout.isEmpty then .error .emptyFunction
  else
    let blocks := f.blocks.map Prod.fst
    match blocks.mapM (targetNodes f blocks) with
    | .error fault => .error fault
    | .ok rows =>
      .ok ⟨rows.zipIdx.foldl addRow (nodesOnly blocks), exportedNodes f.blocks⟩

/-- The node of the entry block. -/
def entry : Nat := 0

/-- How many blocks there are. -/
def blockCount (c : FlowGraph) : Nat := c.graph.size

/-- The block of a node. -/
def block? (c : FlowGraph) (n : Nat) : Option BlockId := c.graph.payload? n

/-- The node of a block. -/
def node? (c : FlowGraph) (b : BlockId) : Option Nat := c.graph.payloads.idxOf? b

/-- The entry block. -/
def entryBlock (c : FlowGraph) : BlockId := (c.block? entry).getD 0

/-- The block is exported. -/
def isExported (c : FlowGraph) (b : BlockId) : Bool := (c.node? b).any c.exported.contains

/-- The blocks a block leads to, each once; none for a block that is not there. -/
def successorBlocks (c : FlowGraph) (b : BlockId) : List BlockId :=
  match c.node? b with
  | some n => (c.graph.successors n).filterMap c.block?
  | none => []

/-- The blocks that lead to a block, each once; none for a block that is not there. -/
def predecessorBlocks (c : FlowGraph) (b : BlockId) : List BlockId :=
  match c.node? b with
  | some n => (c.graph.predecessors n).filterMap c.block?
  | none => []

/-- The edges as pairs of blocks. -/
def edges (c : FlowGraph) : List (BlockId × BlockId) :=
  c.graph.edges.filterMap fun e => (c.block? e.1).bind fun u => (c.block? e.2).map (u, ·)

/-- The dominator tree from the entry. -/
def dominators (c : FlowGraph) : DominatorTree := c.graph.dominators entry

/-- Block `a` dominates block `b`. -/
def dominatesBlock (c : FlowGraph) (a b : BlockId) : Bool :=
  match c.node? a, c.node? b with
  | some m, some n => c.dominators.dominates m n
  | _, _ => false

/-- The immediate dominator of a block. -/
def idomBlock? (c : FlowGraph) (b : BlockId) : Option BlockId :=
  (c.node? b).bind fun n => (c.dominators.idom? n).bind c.block?

/-- Every block that the entry reaches with its dominators, by node. -/
def dominatorBlocks (c : FlowGraph) : List (BlockId × Std.TreeSet BlockId) :=
  let tree := c.dominators
  tree.dominatorSets.toList.zipIdx.filterMap fun s =>
    if tree.isReachable s.2 then
      (c.block? s.2).map (·, Std.TreeSet.ofList (s.1.toList.filterMap c.block?))
    else none

/-- For every node, whether the entry or an exported block reaches it. -/
def live (c : FlowGraph) : Array Bool := c.graph.reachable (entry :: c.exported)

/-- The entry or an exported block reaches the block. -/
def isLive (c : FlowGraph) (b : BlockId) : Bool :=
  (c.node? b).any fun n => c.live[n]?.getD false

/-- Some edge leads to a dominator of its source. -/
def hasBackEdges (c : FlowGraph) : Bool :=
  let tree := c.dominators
  c.graph.edges.any fun e => tree.dominates e.2 e.1

end FlowGraph

end Bytecode
