/-!
# Settings of the optimiser

Which passes run, and the limits they keep to. Slot reduction has to be asked for.
-/

namespace Bytecode

/-- What the optimiser is to do. -/
structure Settings where
  /-- Check stack heights before and after. -/
  validateStack : Bool := true
  /-- Drop the handlers of blocks that cannot throw. -/
  simplifyHandlers : Bool := true
  /-- Remove trampolines and fuse chains. -/
  mergeBlocks : Bool := true
  /-- Drop blocks that nothing reaches. -/
  placeBlocks : Bool := true
  /-- Report loops. -/
  findLoops : Bool := true
  /-- Let registers share slots. -/
  reduceRegisters : Bool := false
  /-- The register count that slot reduction does not go below. -/
  minRegisters : Nat := 1
  /-- Slot reduction needs this many registers beyond the arguments. -/
  reductionHeadroom : Nat := 2
  /-- The number of rounds after which merging gives up. -/
  maxMergeRounds : Nat := 50
  deriving DecidableEq, Repr

/-- Check the function and change nothing. -/
def Settings.validateOnly : Settings :=
  { simplifyHandlers := false, mergeBlocks := false, placeBlocks := false, findLoops := false }

end Bytecode
