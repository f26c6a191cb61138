import Bytecode.Index

/-!
# Directed graphs

Nodes are numbered in the order they are added and carry a payload. Successors and predecessors are
kept side by side, each list without repetitions and in the order the edges came. An edge that is
already there, or whose ends are not both nodes, is refused.
-/

namespace Bytecode

/-- A directed graph by its adjacency lists, of which each node has two. -/
@[ext] structure Digraph (α : Type) where
  payloads : Array α
  succs : Array (List Nat)
  preds : Array (List Nat)
  edgeCount : Nat
  succs_size : succs.size = payloads.size
  preds_size : preds.size = payloads.size

namespace Digraph

variable {α : Type}

/-- The graph without nodes. -/
def empty : Digraph α := ⟨#[], #[], #[], 0, rfl, rfl⟩

/-- How many nodes there are. -/
def size (g : Digraph α) : Nat := g.payloads.size

/-- The payload of a node. -/
def payload? (g : Digraph α) (n : Nat) : Option α := g.payloads[n]?

/-- The targets of the edges that leave a node. -/
def successors (g : Digraph α) (n : Nat) : List Nat := g.succs[n]?.getD []

/-- The sources of the edges that enter a node. -/
def predecessors (g : Digraph α) (n : Nat) : List Nat := g.preds[n]?.getD []

/-- All edges, by source and then in the order they came. -/
def edges (g : Digraph α) : List (Nat × Nat) :=
  (List.range g.size).flatMap fun u => (g.successors u).map (u, ·)

/-- Add a node without edges; its number is the former size. -/
def addNode (g : Digraph α) (payload : α) : Digraph α :=
  { g with
    payloads := g.payloads.push payload
    succs := g.succs.push []
    preds := g.preds.push []
    succs_size := by simp [g.succs_size]
    preds_size := by simp [g.preds_size] }

/-- The edge can be added: its ends are nodes and it is not there yet. -/
def accepts (g : Digraph α) (u v : Nat) : Bool :=
  u < g.size && v < g.size && !(g.successors u).contains v

/-- Record `u` as the latest predecessor of `v`. -/
def pushPred (u : Nat) (preds : Array (List Nat)) (v : Nat) : Array (List Nat) :=
  preds.modify v (· ++ [u])

/-- Add the edge from `u` to `v` if the graph accepts it. -/
def addEdge (g : Digraph α) (u v : Nat) : Digraph α :=
  if g.accepts u v then
    { g with
      succs := g.succs.modify u (· ++ [v])
      preds := pushPred u g.preds v
      edgeCount := g.edgeCount + 1
      succs_size := by simp [g.succs_size]
      preds_size := by simp [pushPred, g.preds_size] }
  else g

/-- The targets that are nodes and not yet known, each at its first occurrence. -/
def newTargets (size : Nat) : List Nat → List Nat → List Nat
  | _, [] => []
  | known, v :: rest =>
    if v < size && !known.contains v then v :: newTargets size (v :: known) rest
    else newTargets size known rest

/-- The targets among `vs` to which `addEdges` adds an edge from `u`. -/
def newSuccessors (g : Digraph α) (u : Nat) (vs : List Nat) : List Nat :=
  if u < g.size then newTargets g.size (g.successors u) vs else []

private theorem size_foldl_pushPred (u : Nat) (vs : List Nat) (preds : Array (List Nat)) :
    (vs.foldl (pushPred u) preds).size = preds.size := by
  induction vs generalizing preds with
  | nil => rfl
  | cons v rest ih =>
    rw [List.foldl_cons, ih]
    exact Array.size_modify

/-- Add the edges from `u` to all of `vs` at once, passing over those that are refused. -/
def addEdges (g : Digraph α) (u : Nat) (vs : List Nat) : Digraph α :=
  let added := g.newSuccessors u vs
  { g with
    succs := g.succs.modify u (· ++ added)
    preds := added.foldl (pushPred u) g.preds
    edgeCount := g.edgeCount + added.length
    succs_size := by simp [g.succs_size]
    preds_size := by rw [size_foldl_pushPred, g.preds_size] }

end Digraph

end Bytecode
