import Bytecode.Flow.FlowGraph
import Bytecode.Func.Edit
import Bytecode.Optimize.Transform

/-!
# Placement

Blocks that neither the entry nor an exported block leads to are dropped. The others keep their
order.
-/

namespace Bytecode.Placement

/-- The name of the pass. -/
def passName : String := "block-placer"

/-- What the pass does, in words. -/
def passDescription : String := "Removes unreachable blocks and keeps the entry block first"

/-- The blocks that nothing reaches, in layout order. -/
def dead (c : FlowGraph) : List BlockId :=
  (c.live.toList.zipIdx.filter fun n => !n.1).filterMap fun n => c.block? n.2

/-- Drop one block. -/
def drop (b : BlockId) : Transform Nat := do
  Transform.update (·.removeBlock b)
  Transform.record
    { kind := .blockRemoved
      block := some b
      message := BlockId.label b ++ " is unreachable"
      pass := some passName }
  pure 1

/-- Drop every block that nothing reaches; the result is whether there was one. -/
def run : Transform Bool := do
  let f ← Transform.current
  let c ← Transform.ofExcept (FlowGraph.ofFunc f)
  let dropped ← Transform.sumOver drop (dead c)
  pure (dropped ≠ 0)

end Bytecode.Placement
