import Bytecode.Func
import Bytecode.Instr.Text

/-!
# Listings

A listing shows a function's head, its blocks in layout order with their instructions numbered
through, and its constants if it has any.
-/

namespace Bytecode

/-- The line that opens a block. -/
def Block.heading (b : Block) (id : BlockId) : String :=
  BlockId.label id ++ ":" ++ (if b.exported then " exported" else "") ++
    (match b.handler with
      | some h => " handler " ++ BlockId.label h
      | none => "") ++ "\n"

namespace Func

/-- An indented line with its number. -/
private def listingLine (number content : String) : String :=
  "    " ++ number ++ ": " ++ content ++ "\n"

/-- Instructions numbered from `offset`. -/
def codeListing (offset : Nat) (code : List Instr) : String :=
  String.join ((code.zipIdx offset).map fun i => listingLine (toString i.2) i.1.text)

/-- Blocks whose first instruction has number `offset`. -/
def blockListing : Nat → List (BlockId × Block) → String
  | _, [] => ""
  | offset, (id, b) :: rest =>
    b.heading id ++ codeListing offset b.code ++ blockListing (offset + b.code.length) rest

/-- The constants with their positions. -/
def constantListing (constants : List Constant) : String :=
  if constants.isEmpty then ""
  else
    "constants:\n" ++
      String.join (constants.zipIdx.map fun c => listingLine (ConstIndex.label c.2) c.1.text)

/-- The whole function as text. -/
def listing (f : Func) : String :=
  s!"function {f.name} (args: {f.argCount}, registers: {f.registerCount})\n" ++
    blockListing 0 f.blocks ++ constantListing f.constants

end Func

end Bytecode
