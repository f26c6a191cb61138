import Bytecode.Index
import Bytecode.Opcode

/-!
# Instructions

One instruction of a stack machine with registers. Every static question about it has its function
here: the operands it takes from the stack and leaves there, the blocks it names, the registers it
reads and writes. Block references are handles, so a change of targets is a map over them.
-/

namespace Bytecode

/-- What a `push` puts on the stack. -/
inductive Immediate where
  | undefined
  | null
  | bool (value : Bool)
  | int (value : Int32)
  /-- The constant at a pool position. -/
  | pooled (index : ConstIndex)
  deriving DecidableEq

/-- Operators that take two values and leave one. -/
inductive BinaryOp where
  | add | sub | mul | div | mod | looseEq | strictEq | lt | le | bitAnd | bitOr | shl
  deriving DecidableEq

/-- Operators that take one value and leave one. -/
inductive UnaryOp where
  | neg | not | typeof
  deriving DecidableEq

/-- An instruction with its operands. -/
inductive Instr where
  | push (value : Immediate)
  | pop
  | dup
  | swap
  /-- Push the value of a register. -/
  | loadReg (reg : Register)
  /-- Pop into a register. -/
  | storeReg (reg : Register)
  /-- Copy register `src` into register `dst`. -/
  | move (dst src : Register)
  /-- Add one to a register in place. -/
  | increment (reg : Register)
  | binary (op : BinaryOp)
  | unary (op : UnaryOp)
  /-- Pop an object and push its property; the pool holds the name. -/
  | getProp (name : ConstIndex)
  /-- Pop an object and a value and store the property. -/
  | setProp (name : ConstIndex)
  /-- Pop an object and a key and push the element. -/
  | getElem
  /-- Pop an object, a key and a value and store the element. -/
  | setElem
  /-- Pop callee, receiver and arguments and push the result. -/
  | call (argc : UInt32)
  /-- Pop constructor and arguments and push the new object. -/
  | construct (argc : UInt32)
  | newObject
  /-- Pop the elements and push an array of them. -/
  | newArray (count : UInt32)
  /-- Push the exception that is being handled. -/
  | caught
  /-- Continue at `target`. -/
  | jump (target : BlockId)
  /-- Pop a condition and continue at one of two blocks. -/
  | branch (ifTrue ifFalse : BlockId)
  /-- Pop a discriminant and continue at its entry in a pooled table, or at `default`. -/
  | jumpTable (table : ConstIndex) (default : BlockId)
  /-- Pop the result and leave the function. -/
  | ret
  /-- Pop a value and raise it. -/
  | raise
  deriving DecidableEq

/-- How many values an instruction takes from the stack, and how many it leaves in their place. -/
structure StackEffect where
  pops : Nat
  pushes : Nat
  deriving DecidableEq, Repr

/-- The change of the stack height. -/
def StackEffect.net (e : StackEffect) : Int := (e.pushes : Int) - (e.pops : Int)

/-- The opcode of a `push`. -/
def Immediate.opcode : Immediate → Opcode
  | undefined => .pushUndefined
  | null => .pushNull
  | bool _ => .pushBool
  | int _ => .pushInt
  | pooled _ => .pushConst

/-- The opcode of a binary operator. -/
def BinaryOp.opcode : BinaryOp → Opcode
  | add => .add
  | sub => .sub
  | mul => .mul
  | div => .div
  | mod => .mod
  | looseEq => .looseEq
  | strictEq => .strictEq
  | lt => .lt
  | le => .le
  | bitAnd => .bitAnd
  | bitOr => .bitOr
  | shl => .shl

/-- The opcode of a unary operator. -/
def UnaryOp.opcode : UnaryOp → Opcode
  | neg => .neg
  | not => .not
  | typeof => .typeof

namespace Instr

/-- The instruction without its operands. -/
def opcode : Instr → Opcode
  | push value => value.opcode
  | pop => .pop
  | dup => .dup
  | swap => .swap
  | loadReg _ => .loadReg
  | storeReg _ => .storeReg
  | move _ _ => .move
  | increment _ => .increment
  | binary op => op.opcode
  | unary op => op.opcode
  | getProp _ => .getProp
  | setProp _ => .setProp
  | getElem => .getElem
  | setElem => .setElem
  | call _ => .call
  | construct _ => .construct
  | newObject => .newObject
  | newArray _ => .newArray
  | caught => .caught
  | jump _ => .jump
  | branch _ _ => .branch
  | jumpTable _ _ => .jumpTable
  | ret => .ret
  | raise => .raise

/-- It ends a block. -/
def isTerminator (i : Instr) : Bool := i.opcode.traits.terminator

/-- It may raise an exception. -/
def canThrow (i : Instr) : Bool := i.opcode.traits.throws

/-- The operands it pops and pushes. A call also pops its callee and receiver, a construction its
constructor; both counts stay within `countLimit`. -/
def effect : Instr → StackEffect
  | push _ | loadReg _ | newObject | caught => ⟨0, 1⟩
  | pop | storeReg _ | branch _ _ | jumpTable _ _ | ret | raise => ⟨1, 0⟩
  | dup => ⟨1, 2⟩
  | swap => ⟨2, 2⟩
  | move _ _ | increment _ | jump _ => ⟨0, 0⟩
  | binary _ | getElem => ⟨2, 1⟩
  | unary _ | getProp _ => ⟨1, 1⟩
  | setProp _ => ⟨2, 0⟩
  | setElem => ⟨3, 0⟩
  | call argc => ⟨addCapped argc.toNat 2, 1⟩
  | construct argc => ⟨addCapped argc.toNat 1, 1⟩
  | newArray count => ⟨count.toNat, 1⟩

/-- The blocks it names, in operand order. Entries of a pooled table are not among them. -/
def targets : Instr → List BlockId
  | jump target => [target]
  | branch ifTrue ifFalse => [ifTrue, ifFalse]
  | jumpTable _ default => [default]
  | _ => []

/-- Replace the blocks it names. -/
def mapTargets (f : BlockId → BlockId) : Instr → Instr
  | jump target => jump (f target)
  | branch ifTrue ifFalse => branch (f ifTrue) (f ifFalse)
  | jumpTable table default => jumpTable table (f default)
  | i => i

/-- Name `new` wherever `old` was named. -/
def redirect (old new : BlockId) (i : Instr) : Instr := i.mapTargets (retarget old new)

/-- The register it reads. -/
def reads : Instr → Option Register
  | loadReg reg | increment reg => some reg
  | move _ src => some src
  | _ => none

/-- The register it writes. -/
def writes : Instr → Option Register
  | storeReg reg | increment reg => some reg
  | move dst _ => some dst
  | _ => none

/-- Replace the register operands: what is read through `read`, what is written through `write`.
An `increment` has one operand, which is written. -/
def mapRegisters (read write : Register → Register) : Instr → Instr
  | loadReg reg => loadReg (read reg)
  | storeReg reg => storeReg (write reg)
  | increment reg => increment (write reg)
  | move dst src => move (write dst) (read src)
  | i => i

/-- The targets of a mapped instruction are the mapped targets. -/
@[simp] theorem targets_mapTargets (f : BlockId → BlockId) (i : Instr) :
    (i.mapTargets f).targets = i.targets.map f := by
  cases i <;> rfl

/-- Other targets make no other instruction. -/
@[simp] theorem opcode_mapTargets (f : BlockId → BlockId) (i : Instr) :
    (i.mapTargets f).opcode = i.opcode := by
  cases i <;> rfl

/-- Targets mapped to themselves leave the instruction. -/
@[simp] theorem mapTargets_id (i : Instr) : i.mapTargets id = i := by
  cases i <;> rfl

/-- Other registers make no other instruction. -/
@[simp] theorem opcode_mapRegisters (read write : Register → Register) (i : Instr) :
    (i.mapRegisters read write).opcode = i.opcode := by
  cases i <;> rfl

end Instr

end Bytecode
