import Bytecode.Flow.FlowGraph
import Std.Data.TreeMap

/-!
# Back edges and natural loops

A back edge leads from a latch to a header that dominates it. The natural loop of a header has the
header and every block that reaches one of its latches without passing through the header. A loop
is nested in every other loop whose body has its header.
-/

namespace Bytecode

/-- Back edges, by header and by source. -/
structure BackEdges where
  /-- The latches of each header. -/
  byHeader : Std.TreeMap BlockId (Std.TreeSet BlockId)
  /-- The headers to which each source has a back edge. -/
  bySource : Std.TreeMap BlockId (Std.TreeSet BlockId)

namespace BackEdges

/-- No back edges. -/
def empty : BackEdges := ⟨∅, ∅⟩

/-- Put `b` into the set of `a`. -/
def relate (m : Std.TreeMap BlockId (Std.TreeSet BlockId)) (a b : BlockId) :
    Std.TreeMap BlockId (Std.TreeSet BlockId) :=
  m.insert a ((m.getD a ∅).insert b)

/-- Add the back edge from `source` to `header`. -/
def insert (e : BackEdges) (source header : BlockId) : BackEdges :=
  ⟨relate e.byHeader header source, relate e.bySource source header⟩

/-- The back edges of a list of sources and headers. -/
def ofList (edges : List (BlockId × BlockId)) : BackEdges :=
  edges.foldl (fun e edge => e.insert edge.1 edge.2) empty

/-- The headers in order. -/
def headers (e : BackEdges) : List BlockId := e.byHeader.keys

/-- The latches of a header. -/
def latches? (e : BackEdges) (header : BlockId) : Option (Std.TreeSet BlockId) :=
  e.byHeader[header]?

/-- The headers to which a source has a back edge. -/
def targets? (e : BackEdges) (source : BlockId) : Option (Std.TreeSet BlockId) :=
  e.bySource[source]?

/-- There is a back edge from `source` to `header`. -/
def contains (e : BackEdges) (source header : BlockId) : Bool :=
  (e.targets? source).any (·.contains header)

/-- The block is the header of a loop. -/
def isHeader (e : BackEdges) (b : BlockId) : Bool := e.byHeader.contains b

/-- The back edges as pairs of source and header, in order. -/
def toList (e : BackEdges) : List (BlockId × BlockId) :=
  e.bySource.toList.flatMap fun s => s.2.toList.map (s.1, ·)

/-- How many back edges there are. -/
def size (e : BackEdges) : Nat := e.toList.length

/-- There are no back edges. -/
def isEmpty (e : BackEdges) : Bool := e.bySource.isEmpty

end BackEdges

/-- A natural loop. -/
structure NaturalLoop where
  header : BlockId
  /-- The sources of the back edges to the header. -/
  latches : Std.TreeSet BlockId
  /-- The blocks of the loop, with the header. -/
  body : Std.TreeSet BlockId
  /-- How many other loops enclose it. -/
  depth : Nat

namespace Digraph

variable {α : Type}

/-- The graph with every edge turned round. -/
def reverse (g : Digraph α) : Digraph α :=
  { g with
    succs := g.preds
    preds := g.succs
    succs_size := g.preds_size
    preds_size := g.succs_size }

/-- Take into a loop, given by the marks on its nodes, every node that leads to `latch` from
outside it. A latch that the loop has already brings nothing new. -/
def expandLoop (g : Digraph α) (marks : Array Bool) (latch : Nat) : Array Bool :=
  (g.reverse.traverse (g.reverse.edges.length + 1) [⟨latch, latch⟩] marks).foldl
    (fun marks v => marks.setIfInBounds v.node true) marks

/-- The node `header` and all nodes that reach one of `latches` without passing through it. The
loop starts as the header alone and is expanded from one latch after the other. -/
def loopNodes (g : Digraph α) (header : Nat) (latches : List Nat) : List Nat :=
  let marks :=
    latches.foldl g.expandLoop ((Array.replicate g.size false).setIfInBounds header true)
  (List.range g.size).filter (isMarked marks)

end Digraph

namespace FlowGraph

/-- The back edges that leave a node. -/
def backEdgesFrom (c : FlowGraph) (tree : DominatorTree) (n : Nat) :
    List (BlockId × BlockId) :=
  ((c.graph.successors n).filter fun s => tree.dominates s n).filterMap fun s =>
    (c.block? n).bind fun source => (c.block? s).map (source, ·)

/-- The back edges among the blocks that the entry reaches. A function with a single block is taken
to have none. -/
def backEdges (c : FlowGraph) : BackEdges :=
  if c.blockCount ≤ 1 then .empty
  else
    let tree := c.dominators
    .ofList ((c.graph.dfs entry).flatMap (c.backEdgesFrom tree))

/-- The loop of a header, not yet placed among the others. -/
def loopOf? (c : FlowGraph) (header : BlockId) (latches : Std.TreeSet BlockId) :
    Option NaturalLoop :=
  (c.node? header).map fun n =>
    let nodes := c.graph.loopNodes n (latches.toList.filterMap c.node?)
    { header := header
      latches := latches
      body := Std.TreeSet.ofList (nodes.filterMap c.block?)
      depth := 0 }

/-- How many of the loops enclose the given one. -/
def depthIn (loops : List NaturalLoop) (l : NaturalLoop) : Nat :=
  loops.countP fun outer => outer.header ≠ l.header && outer.body.contains l.header

/-- The natural loops of the given back edges, by header. Headers that are no blocks have none. -/
def loops (c : FlowGraph) (e : BackEdges) : List NaturalLoop :=
  let flat := e.byHeader.toList.filterMap fun h => c.loopOf? h.1 h.2
  flat.map fun l => { l with depth := depthIn flat l }

end FlowGraph

end Bytecode
