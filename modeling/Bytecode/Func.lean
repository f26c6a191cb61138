import Bytecode.Block
import Bytecode.Constant
import Bytecode.Fault

/-!
# Functions

A function keeps its blocks in an arena of slots. A block's handle is its slot, so handles stay
valid while other blocks come and go; a removed block leaves an empty slot behind. The layout
orders the live blocks, the first of them being the entry. `Func.block?` is the view through which
operations are described; `Func.WF` says that layout and arena speak of the same blocks.
-/

namespace Bytecode

/-- A function: blocks in layout order, a constant pool, and its register counts. -/
structure Func where
  name : String
  /-- Registers below this hold the parameters. -/
  argCount : Nat
  /-- Registers of the function are below this. -/
  registerCount : Nat
  constants : List Constant
  /-- The slots of all blocks there ever were; an empty one belonged to a removed block. -/
  arena : Array (Option Block)
  /-- The live blocks in order. -/
  layout : List BlockId
  deriving DecidableEq

namespace Func

/-- The function without blocks and constants. -/
def empty (name : String) (argCount registerCount : Nat) : Func :=
  ⟨name, argCount, registerCount, [], #[], []⟩

/-- The block with the given handle, if it is live. -/
def block? (f : Func) (id : BlockId) : Option Block := f.arena[id]?.join

/-- The handle names a live block. -/
def contains (f : Func) (id : BlockId) : Bool := (f.block? id).isSome

/-- The layout lists every live block once and nothing else. -/
structure WF (f : Func) : Prop where
  nodup : f.layout.Nodup
  mem_layout : ∀ id, id ∈ f.layout ↔ f.contains id = true

/-- The live blocks with their handles, in layout order. -/
def blocks (f : Func) : List (BlockId × Block) :=
  f.layout.filterMap fun id => (f.block? id).map (id, ·)

/-- The block where a call starts. -/
def entry? (f : Func) : Option BlockId := f.layout.head?

/-- How many blocks the layout lists. -/
def blockCount (f : Func) : Nat := f.layout.length

/-- How many instructions the live blocks hold. -/
def instructionCount (f : Func) : Nat := (f.blocks.flatMap fun b => b.2.code).length

/-- The exported blocks in layout order. -/
def exportedBlocks (f : Func) : List BlockId :=
  (f.blocks.filter fun b => b.2.exported).map Prod.fst

/-- The jump table at a pool position, if that constant is one. -/
def table? (f : Func) (index : ConstIndex) : Option JumpTable :=
  f.constants[index]?.bind Constant.table?

/-- The jump tables of the pool, in order. -/
def tables (f : Func) : List JumpTable := f.constants.filterMap Constant.table?

/-- The blocks that a terminator of block `id` leads to, in operand order: the entries of a table
by discriminant and then its default. Repetitions stay, and handlers are not among them. `length`
is the number of instructions of the block, which locates the terminator. -/
def terminatorTargets (f : Func) (id : BlockId) (length : Nat) :
    Instr → Except Fault (List BlockId)
  | .jumpTable index default =>
    match f.table? index with
    | some table => .ok (table.targets ++ [default])
    | none => .error (.invalidJumpTable id (length - 1) index)
  | i => .ok i.targets

/-- The blocks that control may pass to at the end of a block. -/
def successors (f : Func) (id : BlockId) : Except Fault (List BlockId) :=
  match f.block? id with
  | none => .error (.foreignBlock id f.name)
  | some b =>
    match b.terminator? with
    | none => .error (.missingTerminator id)
    | some t => f.terminatorTargets id b.code.length t

/-- Structural equality, with the numbers of the pool compared numerically. -/
def same (f g : Func) : Bool :=
  f.name = g.name && f.argCount = g.argCount && f.registerCount = g.registerCount &&
    f.constants.length = g.constants.length &&
    (f.constants.zip g.constants).all (fun c => c.1.same c.2) &&
    f.arena = g.arena && f.layout = g.layout

end Func

end Bytecode
