import Bytecode.Func.Edit
import Bytecode.Optimize.Forwarding
import Bytecode.Optimize.Transform

/-!
# Trampolines

A block that does nothing but jump on can go: whoever names it may name its target. Trampolines in
a row lead to the end of the row; those that lead into a cycle of trampolines stay.
-/

namespace Bytecode.Merge

/-- The name of the pass. -/
def passName : String := "block-merger"

/-- What the pass does, in words. -/
def passDescription : String := "Eliminates trampoline blocks and fuses straight-line block chains"

/-- The trampolines that may go, with their targets, in layout order. -/
def trampolines (f : Func) : List (BlockId × BlockId) :=
  f.blocks.filterMap fun b =>
    if b.2.exported then none else (b.2.trampoline? b.1).map (b.1, ·)

/-- Let `target` stand for trampoline `t`, and remove `t`. -/
def bypass (t target : BlockId) : Transform Nat := do
  Transform.update fun f => (f.redirect t target).removeBlock t
  Transform.record
    { kind := .trampolineRemoved
      block := some t
      message := BlockId.label t ++ " -> " ++ BlockId.label target
      pass := some passName }
  pure 1

/-- Remove one trampoline, unless it leads into a cycle; the result is how many were removed. -/
def removeTrampoline (m : Forwarding) (t : BlockId) : Transform Nat :=
  match m.resolve t with
  | some target => bypass t target
  | none => pure 0

/-- Remove all trampolines that lead somewhere; the result is how many were removed. -/
def removeTrampolines : Transform Nat := do
  let f ← Transform.current
  let found := trampolines f
  Transform.sumOver (removeTrampoline ⟨found⟩) (found.map Prod.fst)

end Bytecode.Merge
