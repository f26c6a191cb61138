import Bytecode.Func

/-!
# Well-formed functions

A well-formed function has a block; each of its blocks ends in its only terminator and names live
blocks, pooled tables and registers in range. `Func.fault?` reports the first exception in layout
order, and within a block in the order of its instructions.
-/

namespace Bytecode

/-- The registers an instruction names, the one it reads first. -/
def Instr.registers (i : Instr) : List Register := i.reads.toList ++ i.writes.toList

namespace Func

/-- The first fault among the instructions of block `id`, the first of them at position
`offset`. -/
def codeFault? (f : Func) (id : BlockId) : Nat → List Instr → Option Fault
  | _, [] => none
  | offset, i :: rest =>
    if i.isTerminator && !rest.isEmpty then some (.misplacedTerminator id offset)
    else
      match i.registers.find? (f.registerCount ≤ ·) with
      | some r => some (.registerOutOfRange r id offset)
      | none => f.codeFault? id (offset + 1) rest

/-- The first fault among the blocks that block `id` names. -/
def referenceFault? (f : Func) (id : BlockId) (b : Block) : Option Fault :=
  match f.successors id with
  | .error fault => some fault
  | .ok targets =>
    ((targets ++ b.handler.toList).find? (!f.contains ·)).map (.invalidBlockReference id)

/-- The first fault of a block. -/
def blockFault? (f : Func) (id : BlockId) (b : Block) : Option Fault :=
  if b.code.isEmpty then some (.emptyBlock id)
  else (f.codeFault? id 0 b.code).or (f.referenceFault? id b)

/-- The first fault of the function; none if it is well formed. -/
def fault? (f : Func) : Option Fault :=
  if f.layout.isEmpty then some .emptyFunction
  else f.blocks.findSome? fun b => f.blockFault? b.1 b.2

end Func

end Bytecode
