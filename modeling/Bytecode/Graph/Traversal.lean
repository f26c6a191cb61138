import Bytecode.Graph.Digraph

/-!
# Traversals

A depth-first traversal works off a stack of nodes to visit, each with the node that put it there.
A node is visited the first time it is on top, and those of its successors that have no mark then
go on the stack in adjacency order; entries whose node got its mark in the meantime are passed
over. The visits, in order, are the preorder of a spanning forest whose tree edges are the recorded
ones.

A flood works off a queue and marks a node when it enters the queue, which it does once. It tells
which nodes are reached, and not in what order.
-/

namespace Bytecode.Digraph

variable {α : Type}

/-- A visit of a traversal: the node, and the node from which it was reached. A root is its own
parent. -/
structure Visit where
  node : Nat
  parent : Nat
  deriving DecidableEq, Repr

/-- The node is out of range or marked as visited. -/
def isMarked (marks : Array Bool) (n : Nat) : Bool := marks[n]?.getD true

/-- The stack entries that a visit of `n` adds. -/
def visitsFrom (g : Digraph α) (marks : Array Bool) (n : Nat) : List Visit :=
  ((g.successors n).filter fun s => !isMarked marks s).map (⟨·, n⟩)

/-- Work off the stack, at most `fuel` entries of it. -/
def traverse (g : Digraph α) : Nat → List Visit → Array Bool → List Visit
  | 0, _, _ => []
  | _ + 1, [], _ => []
  | fuel + 1, v :: stack, marks =>
    if isMarked marks v.node then g.traverse fuel stack marks
    else
      let marks := marks.setIfInBounds v.node true
      v :: g.traverse fuel (g.visitsFrom marks v.node ++ stack) marks

/-- The visits of the traversal from `roots`. Every edge puts at most one entry on the stack, which
bounds the number of entries. -/
def visits (g : Digraph α) (roots : List Nat) : List Visit :=
  g.traverse (g.edges.length + roots.length) (roots.map fun r => ⟨r, r⟩)
    (Array.replicate g.size false)

/-- The nodes reached from `start` in depth-first preorder; none if `start` is no node. -/
def dfs (g : Digraph α) (start : Nat) : List Nat := (g.visits [start]).map Visit.node

/-- Mark a node and let it enter the queue, unless it has a mark. -/
def enqueue (state : List Nat × Array Bool) (n : Nat) : List Nat × Array Bool :=
  if isMarked state.2 n then state else (state.1 ++ [n], state.2.setIfInBounds n true)

/-- Work off the queue, at most `fuel` nodes of it; the result are the marks in the end. -/
def flood (g : Digraph α) : Nat → List Nat × Array Bool → Array Bool
  | 0, (_, marks) => marks
  | _ + 1, ([], marks) => marks
  | fuel + 1, (n :: queue, marks) => g.flood fuel ((g.successors n).foldl enqueue (queue, marks))

/-- For every node, whether some root reaches it. Roots that are no nodes reach nothing. Every node
enters the queue at most once, which bounds the number of steps. -/
def reachable (g : Digraph α) (roots : List Nat) : Array Bool :=
  g.flood g.size (roots.foldl enqueue ([], Array.replicate g.size false))

end Bytecode.Digraph
