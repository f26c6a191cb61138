import Bytecode.Optimize.Chains
import Bytecode.Optimize.Settings

/-!
# Merging blocks

Removing trampolines and fusing chains make room for each other, so both are repeated until a round
finds nothing to do.
-/

namespace Bytecode.Merge

/-- One round; the result is how many blocks went. -/
def round : Transform Nat := do
  let removed ← removeTrampolines
  let absorbed ← fuseChains
  pure (removed + absorbed)

/-- Repeat rounds, at most `left` of them, until one finds nothing; `changed` tells whether an
earlier one did. Running out of the `limit` rounds is a fault. -/
def rounds (limit : Nat) : Nat → Bool → Transform Bool
  | 0, _ => do
    let f ← Transform.current
    Transform.fail (.mergeUnfinished limit f.name)
  | left + 1, changed => do
    let gone ← round
    if gone = 0 then pure changed else rounds limit left true

/-- Merge blocks as far as it goes; the result is whether anything was done. -/
def run (settings : Settings) : Transform Bool :=
  rounds settings.maxMergeRounds settings.maxMergeRounds false

end Bytecode.Merge
