import Bytecode.Func.Edit
import Bytecode.Optimize.Transform

/-!
# Handlers without use

A block that cannot throw needs no handler. Dropping it lets the block be fused with others, and
may leave the handler with nothing to do.
-/

namespace Bytecode.Handlers

/-- The name of the pass. -/
def passName : String := "handler-simplifier"

/-- What the pass does, in words. -/
def passDescription : String := "Removes exception handlers from blocks that cannot throw"

/-- The blocks that cannot throw and have a handler, with that handler, in layout order. -/
def idle (f : Func) : List (BlockId × BlockId) :=
  f.blocks.filterMap fun b => if b.2.canThrow then none else b.2.handler.map (b.1, ·)

/-- Drop the handler of one block. -/
def clear (b : BlockId × BlockId) : Transform Nat := do
  Transform.update fun f => f.modifyBlock b.1 fun block => { block with handler := none }
  Transform.record
    { kind := .handlerCleared
      block := some b.1
      message := "dropped handler " ++ BlockId.label b.2
      pass := some passName }
  pure 1

/-- Drop every handler without use; the result is whether there was one. -/
def run : Transform Bool := do
  let f ← Transform.current
  let cleared ← Transform.sumOver clear (idle f)
  pure (cleared ≠ 0)

end Bytecode.Handlers
