import Bytecode.Func
import Std.Data.TreeMap

/-!
# Stack heights

A function keeps its stack in order when every instruction is reached with one height, whatever
path led there, never pops more than that, and returns with exactly its result. The check walks
each block once, from the height with which it is first reached, and passes the height at its end
on to its successors; a handler starts with an empty stack, and so does an exported block that
nothing has reached. Pending blocks are taken in the order they came.
-/

namespace Bytecode

/-- The height after an instruction; meant for heights it does not underflow. -/
def Instr.heightAfter (i : Instr) (height : Nat) : Nat := height - i.effect.pops + i.effect.pushes

/-- The height after the instruction at `offset`, if the height before it allows the
instruction. -/
def Instr.advance (i : Instr) (offset height : Nat) : Except Fault Nat :=
  if i = .ret ∧ height ≠ 1 then .error (.invalidReturnHeight offset height)
  else if height < i.effect.pops then .error (.stackUnderflow offset height i.effect.pops)
  else .ok (i.heightAfter height)

/-- The height after instructions of which the first is at `offset`. -/
def walkCode (offset height : Nat) : List Instr → Except Fault Nat
  | [] => .ok height
  | i :: rest =>
    match i.advance offset height with
    | .error fault => .error fault
    | .ok next => walkCode (offset + 1) next rest

/-- The heights before every instruction and after the last one. -/
def heightProfile (height : Nat) : List Instr → List Nat
  | [] => [height]
  | i :: rest => height :: heightProfile (i.heightAfter height) rest

/-- The heights of a function whose stack is in order. -/
structure StackLayout where
  /-- The offset of the first instruction of every block, in layout order. -/
  starts : List (BlockId × Nat)
  /-- The height before every instruction; none where control never comes. -/
  heights : List (Option Nat)
  /-- The largest height anywhere. -/
  maxDepth : Nat
  deriving DecidableEq

/-- The height before the instruction at an offset. -/
def StackLayout.heightAt? (l : StackLayout) (offset : Nat) : Option Nat := l.heights[offset]?.join

/-- The offset of the first instruction of a block. -/
def StackLayout.start? (l : StackLayout) (id : BlockId) : Option Nat := l.starts.lookup id

namespace Func

/-- The offsets at which blocks start, the first at `offset`. -/
def blockStarts : Nat → List (BlockId × Block) → List (BlockId × Nat)
  | _, [] => []
  | offset, (id, b) :: rest => (id, offset) :: blockStarts (offset + b.code.length) rest

/-- The offset at which block `id` starts. -/
def startOf (f : Func) (id : BlockId) : Nat := ((blockStarts 0 f.blocks).lookup id).getD 0

/-- A block to visit and the height it is reached with. -/
abbrev Arrival := BlockId × Nat

/-- The heights with which blocks were first reached. -/
abbrev EntryHeights := Std.TreeMap BlockId Nat

/-- The arrivals that follow a visit of block `id`: the handler with an empty stack, the successors
with the height at the end of the block. -/
def arrivals (f : Func) (id : BlockId) (b : Block) (height : Nat) :
    Except Fault (List Arrival) :=
  match f.successors id with
  | .error fault => .error fault
  | .ok targets =>
    let next := targets.map (·, height) ++ b.handler.toList.map (·, 0)
    match next.find? fun a => !f.contains a.1 with
    | some a => .error (.invalidBlockReference id a.1)
    | none => .ok next

/-- What taking up an arrival comes to. -/
structure Visit where
  /-- The heights that are recorded now. -/
  known : EntryHeights
  /-- The arrivals that follow. -/
  next : List Arrival
  /-- Whether the block was walked; if not, it had been before. -/
  walked : Bool

/-- Take up one arrival. A block that was reached before has to be reached with the same height. -/
def visit (f : Func) (known : EntryHeights) (a : Arrival) : Except Fault Visit :=
  match f.block? a.1 with
  | none => .error (.foreignBlock a.1 f.name)
  | some b =>
    match known[a.1]? with
    | some expected =>
      if expected = a.2 then .ok ⟨known, [], false⟩
      else .error (.stackHeightMismatch (f.startOf a.1) expected a.2)
    | none =>
      match walkCode (f.startOf a.1) a.2 b.code with
      | .error fault => .error fault
      | .ok height =>
        match f.arrivals a.1 b height with
        | .error fault => .error fault
        | .ok next => .ok ⟨known.insert a.1 a.2, next, true⟩

/-- Take up pending arrivals in order, at most `fuel` of them. -/
def drain (f : Func) : Nat → List Arrival → EntryHeights → Except Fault EntryHeights
  | 0, _, known => .ok known
  | _ + 1, [], known => .ok known
  | fuel + 1, a :: pending, known =>
    match f.visit known a with
    | .error fault => .error fault
    | .ok v => f.drain fuel (pending ++ v.next) v.known

/-- The arrivals that any visit of a block is followed by, whatever their heights. -/
def anyArrivals (f : Func) (id : BlockId) (b : Block) : List Arrival :=
  match f.arrivals id b 0 with
  | .error _ => []
  | .ok next => next

/-- Follow control from one block that is entered with an empty stack. Each block is walked once,
so the arrivals of all blocks together bound the work. -/
def drainFrom (f : Func) (root : BlockId) (known : EntryHeights) : Except Fault EntryHeights :=
  f.drain (1 + (f.blocks.flatMap fun b => f.anyArrivals b.1 b.2).length) [(root, 0)] known

/-- Follow control from those exported blocks that nothing has reached. -/
def drainExports (f : Func) : List BlockId → EntryHeights → Except Fault EntryHeights
  | [], known => .ok known
  | id :: rest, known =>
    if known.contains id then f.drainExports rest known
    else
      match f.drainFrom id known with
      | .error fault => .error fault
      | .ok known' => f.drainExports rest known'

/-- The height with which each block is reached. -/
def entryHeights (f : Func) : Except Fault EntryHeights :=
  match f.entry? with
  | none => .error .emptyFunction
  | some entry =>
    match f.blocks.find? fun b => b.2.code.isEmpty with
    | some b => .error (.emptyBlock b.1)
    | none =>
      match f.drainFrom entry ∅ with
      | .error fault => .error fault
      | .ok known => f.drainExports f.exportedBlocks known

/-- The heights before every instruction of a block, given how the block is reached. -/
def blockHeights (known : EntryHeights) (id : BlockId) (b : Block) : List (Option Nat) :=
  match known[id]? with
  | some height => (heightProfile height b.code).dropLast.map some
  | none => b.code.map fun _ => none

/-- The largest height in a block, given how the block is reached. -/
def blockDepth (known : EntryHeights) (id : BlockId) (b : Block) : Nat :=
  match known[id]? with
  | some height => (heightProfile height b.code).foldl max 0
  | none => 0

/-- The stack heights of the function, if its stack is in order. -/
def stackLayout (f : Func) : Except Fault StackLayout :=
  match f.entryHeights with
  | .error fault => .error fault
  | .ok known => .ok
    { starts := blockStarts 0 f.blocks
      heights := f.blocks.flatMap fun b => blockHeights known b.1 b.2
      maxDepth := (f.blocks.map fun b => blockDepth known b.1 b.2).foldl max 0 }

end Func

end Bytecode
