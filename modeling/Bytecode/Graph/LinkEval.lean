/-!
# The link-eval forest

Dominators are found over the numbers of a depth-first tree, in which a parent has a smaller number
than its children. The forest holds the tree edges of the nodes that were linked so far, and for
each node its semidominator candidate `semi`. Evaluating a linked node gives, on its path up to the
first node that is not linked, a node whose `semi` is least. Paths are compressed on the way:
`ancestor` skips nodes whose best candidate `best` already stands for them.
-/

namespace Bytecode

/-- The forest of linked nodes. -/
structure LinkForest where
  /-- The semidominator candidate of each node. -/
  semi : Array Nat
  /-- A node further up the path of a linked node; none for a node that is not linked. -/
  ancestor : Array (Option Nat)
  /-- Of the nodes from this one up to before its `ancestor`, one whose `semi` is least. -/
  best : Array Nat

namespace LinkForest

/-- The forest of `size` nodes in which nothing is linked and every node is its own candidate. -/
def start (size : Nat) : LinkForest :=
  ⟨Array.range size, Array.replicate size none, Array.range size⟩

/-- The semidominator candidate of a node. -/
def semiOf (F : LinkForest) (v : Nat) : Nat := F.semi[v]?.getD 0

/-- The node that the path of `v` goes on with, if `v` is linked. -/
def ancestor? (F : LinkForest) (v : Nat) : Option Nat := F.ancestor[v]?.join

/-- The best node found so far on the path of `v`. -/
def bestOf (F : LinkForest) (v : Nat) : Nat := F.best[v]?.getD 0

/-- Lower the candidate of `w` to `s` if that is smaller. -/
def lowerSemi (F : LinkForest) (w s : Nat) : LinkForest :=
  { F with semi := F.semi.setIfInBounds w (min (F.semiOf w) s) }

/-- Link `w` below its tree parent. -/
def link (F : LinkForest) (parent w : Nat) : LinkForest :=
  { F with ancestor := F.ancestor.setIfInBounds w (some parent) }

/-- Let the path of `v` skip its ancestor `a`, whose own path goes on with `next`, and take over
the best node of `a` if it is better. -/
def absorb (F : LinkForest) (v a next : Nat) : LinkForest :=
  { F with
    best :=
      if F.semiOf (F.bestOf a) < F.semiOf (F.bestOf v) then F.best.setIfInBounds v (F.bestOf a)
      else F.best
    ancestor := F.ancestor.setIfInBounds v (some next) }

/-- Let the path of `v` skip its ancestor, if that is linked. -/
def shorten (v : Nat) (F : LinkForest) : LinkForest :=
  match F.ancestor? v with
  | none => F
  | some a =>
    match F.ancestor? a with
    | none => F
    | some next => F.absorb v a next

/-- The nodes on the path of `v` whose ancestors are linked, from `v` up. Ancestors have smaller
numbers, so `v` steps are enough. -/
def trail (F : LinkForest) : Nat → Nat → List Nat
  | 0, _ => []
  | fuel + 1, v =>
    match F.ancestor? v with
    | none => []
    | some a => if (F.ancestor? a).isNone then [] else v :: F.trail fuel a

/-- Compress the path of a linked node `v`: afterwards its ancestor is not linked. The nodes of the
path are stacked on the way up and shortened on the way back, so the ancestor of each has been
compressed before it. -/
def compress (F : LinkForest) (v : Nat) : LinkForest := (F.trail v v).foldr shorten F

/-- A node with the least candidate on the path of `v`, and the forest with that path compressed.
While `v` is not linked it is `v` itself. -/
def eval (F : LinkForest) (v : Nat) : Nat × LinkForest :=
  if (F.ancestor? v).isNone then (v, F)
  else
    let G := F.compress v
    (G.bestOf v, G)

end LinkForest

end Bytecode
