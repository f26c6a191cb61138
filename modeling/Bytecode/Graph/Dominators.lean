import Bytecode.Graph.Digraph
import Bytecode.Graph.LinkEval
import Std.Data.TreeSet

/-!
# Dominators

A node dominates another when every path from the entry to the latter passes through it. The tree
of immediate dominators is computed from semidominators over a depth-first tree: nodes are taken in
reverse preorder, each first collecting the candidates of its predecessors, and its tree parent
then settling the nodes whose semidominator it is. Nodes that the entry does not reach take no
part.
-/

namespace Bytecode

/-- Depth-first numbers of the nodes reached from an entry, and the tree they form. -/
structure Numbering where
  /-- The node with each number. -/
  order : Array Nat
  /-- The number of each node that is reached. -/
  number : Array (Option Nat)
  /-- The number of each number's tree parent; the root has its own. -/
  parent : Array Nat

namespace Numbering

/-- No node of a graph with `size` nodes has a number. -/
def empty (size : Nat) : Numbering := ⟨#[], Array.replicate size none, #[]⟩

/-- How many nodes have numbers. -/
def size (N : Numbering) : Nat := N.order.size

/-- The node with a number. -/
def nodeOf (N : Numbering) (w : Nat) : Nat := N.order[w]?.getD 0

/-- The number of a node, if it is reached. -/
def number? (N : Numbering) (n : Nat) : Option Nat := N.number[n]?.join

/-- The number of the tree parent. -/
def parentOf (N : Numbering) (w : Nat) : Nat := N.parent[w]?.getD 0

/-- The node is there and has no number. -/
def awaits (N : Numbering) (n : Nat) : Bool := N.number[n]? = some none

/-- Give the next number to a node, whose tree parent has number `parent`. -/
def push (N : Numbering) (n parent : Nat) : Numbering :=
  { order := N.order.push n
    number := N.number.setIfInBounds n (some N.size)
    parent := N.parent.push parent }

/-- Number nodes in the order of a depth-first search. The stack holds nodes, each with the number
of the node that put it there; at most `fuel` entries are worked off. -/
def search {α : Type} (g : Digraph α) : Nat → List (Nat × Nat) → Numbering → Numbering
  | 0, _, N => N
  | _ + 1, [], N => N
  | fuel + 1, (n, parent) :: stack, N =>
    if N.awaits n then
      let next := N.push n parent
      search g fuel (((g.successors n).filter next.awaits).map (·, N.size) ++ stack) next
    else search g fuel stack N

/-- The numbers of the reached predecessors of a number. -/
def preds {α : Type} (N : Numbering) (g : Digraph α) (w : Nat) : List Nat :=
  (g.predecessors (N.nodeOf w)).filterMap N.number?

end Numbering

/-- The state of the computation of immediate dominators. All entries are numbers. -/
structure Semidominators where
  forest : LinkForest
  /-- The nodes with a given semidominator that are not settled yet. -/
  buckets : Array (List Nat)
  /-- The immediate dominator, or a node with the same one that has a smaller number. -/
  idom : Array Nat

namespace Semidominators

/-- The state before any node is taken. -/
def start (size : Nat) : Semidominators :=
  ⟨LinkForest.start size, Array.replicate size [], Array.replicate size 0⟩

/-- Let `w` take the candidate of one predecessor `v`. -/
def consider (w : Nat) (F : LinkForest) (v : Nat) : LinkForest :=
  let (u, G) := F.eval v
  G.lowerSemi w (G.semiOf u)

/-- Put `w` into the bucket of its semidominator. -/
def file (S : Semidominators) (w : Nat) : Semidominators :=
  { S with buckets := S.buckets.modify (S.forest.semiOf w) (· ++ [w]) }

/-- Settle `v`, whose semidominator is `parent`: if a better candidate `u` lies between the two,
both have the same dominator, and otherwise `parent` is it. -/
def settle (parent : Nat) (S : Semidominators) (v : Nat) : Semidominators :=
  let (u, G) := S.forest.eval v
  { S with
    forest := G
    idom := S.idom.setIfInBounds v (if G.semiOf u < G.semiOf v then u else parent) }

/-- Settle all nodes in the bucket of `parent`. -/
def settleBucket (S : Semidominators) (parent : Nat) : Semidominators :=
  let S' := (S.buckets[parent]?.getD []).foldl (settle parent) S
  { S' with buckets := S'.buckets.setIfInBounds parent [] }

/-- Take node `w` with tree parent `parent` and predecessors `preds`. -/
def take (S : Semidominators) (w parent : Nat) (preds : List Nat) : Semidominators :=
  let S₁ := { S with forest := preds.foldl (consider w) S.forest }
  let S₂ := S₁.file w
  let S₃ := { S₂ with forest := S₂.forest.link parent w }
  S₃.settleBucket parent

/-- Take the nodes `w`, `w - 1`, …, `1`. -/
def takeDown {α : Type} (N : Numbering) (g : Digraph α) : Nat → Semidominators → Semidominators
  | 0, S => S
  | w + 1, S => takeDown N g w (S.take (w + 1) (N.parentOf (w + 1)) (N.preds g (w + 1)))

/-- Replace a deferred dominator of `w` by that of the node it was deferred to. -/
def resolve (semi : Array Nat) (idom : Array Nat) (w : Nat) : Array Nat :=
  let d := idom[w]?.getD 0
  if d = semi[w]?.getD 0 then idom else idom.setIfInBounds w (idom[d]?.getD 0)

/-- The immediate dominators of all numbers but `0`, which is the entry. -/
def idoms {α : Type} (N : Numbering) (g : Digraph α) : Array Nat :=
  let S := takeDown N g (N.size - 1) (start N.size)
  (List.range' 1 (N.size - 1)).foldl (resolve S.forest.semi) S.idom

end Semidominators

/-- The tree of immediate dominators of a graph. -/
structure DominatorTree where
  entry : Nat
  /-- The immediate dominator of each node; none for the entry and for nodes out of its reach. -/
  idom : Array (Option Nat)
  /-- The nodes that the entry reaches, in depth-first preorder. -/
  preorder : List Nat

namespace DominatorTree

/-- The tree from a numbering and the immediate dominators of its numbers. -/
def ofNumbers (entry : Nat) (size : Nat) (N : Numbering) (idoms : Array Nat) : DominatorTree :=
  let set (idom : Array (Option Nat)) (w : Nat) : Array (Option Nat) :=
    idom.setIfInBounds (N.nodeOf w) (some (N.nodeOf (idoms[w]?.getD 0)))
  { entry := entry
    idom := (List.range' 1 (N.size - 1)).foldl set (Array.replicate size none)
    preorder := N.order.toList }

/-- How many nodes the graph has, reached or not. -/
def nodeCount (t : DominatorTree) : Nat := t.idom.size

/-- The immediate dominator of a node. -/
def idom? (t : DominatorTree) (n : Nat) : Option Nat := t.idom[n]?.join

/-- The entry reaches the node. -/
def isReachable (t : DominatorTree) (n : Nat) : Bool :=
  n = t.entry && n < t.nodeCount || (t.idom? n).isSome

/-- From `n` up the tree, at most `fuel` steps. -/
def ascend (t : DominatorTree) : Nat → Nat → List Nat
  | 0, n => [n]
  | fuel + 1, n =>
    match t.idom? n with
    | none => [n]
    | some d => n :: t.ascend fuel d

/-- The dominators of a node from itself up to the entry; none if it is not reached. -/
def chain (t : DominatorTree) (n : Nat) : List Nat :=
  if t.isReachable n then t.ascend t.nodeCount n else []

/-- Every path from the entry to `b` passes through `a`, and there is one. -/
def dominates (t : DominatorTree) (a b : Nat) : Bool :=
  t.isReachable a && (t.chain b).contains a

/-- It dominates, and is another node. -/
def strictlyDominates (t : DominatorTree) (a b : Nat) : Bool := a ≠ b && t.dominates a b

/-- How far a node is below the entry in the tree. -/
def depth (t : DominatorTree) (n : Nat) : Nat := (t.chain n).length - 1

/-- The nodes that a node dominates immediately, in order. -/
def children (t : DominatorTree) (n : Nat) : List Nat :=
  (List.range t.nodeCount).filter fun c => t.idom? c = some n

/-- Give node `n` the set of its immediate dominator and itself. -/
def extendSet (t : DominatorTree) (sets : Array (Std.TreeSet Nat)) (n : Nat) :
    Array (Std.TreeSet Nat) :=
  let above := match t.idom? n with
    | some d => sets[d]?.getD ∅
    | none => ∅
  sets.setIfInBounds n (above.insert n)

/-- The dominators of every node as sets, passed down the tree in preorder. -/
def dominatorSets (t : DominatorTree) : Array (Std.TreeSet Nat) :=
  t.preorder.foldl t.extendSet (Array.replicate t.nodeCount ∅)

end DominatorTree

namespace Digraph

variable {α : Type}

/-- The depth-first numbering from an entry. Every edge puts at most one entry on the stack. -/
def numbering (g : Digraph α) (entry : Nat) : Numbering :=
  Numbering.search g (g.edges.length + 1) [(entry, 0)] (.empty g.size)

/-- The dominator tree from an entry. An entry that is no node reaches nothing. -/
def dominators (g : Digraph α) (entry : Nat) : DominatorTree :=
  let N := g.numbering entry
  DominatorTree.ofNumbers entry g.size N (Semidominators.idoms N g)

end Digraph

end Bytecode
