import Bytecode.Instr

/-!
# Blocks

A block is a run of instructions that ends in its only terminator, with the block that receives its
exceptions and a mark for blocks that are entered from outside ordinary control flow. Nothing here
assumes that the block is well formed: a missing or misplaced terminator is for validation to find.
-/

namespace Bytecode

/-- A straight-line run of instructions. -/
structure Block where
  code : List Instr
  /-- The block that receives exceptions raised here. -/
  handler : Option BlockId := none
  /-- The block is entered by a table, as a handler, or from outside, and has to stay. -/
  exported : Bool := false
  deriving DecidableEq

namespace Block

/-- The last instruction, if it is a terminator. -/
def terminator? (b : Block) : Option Instr := b.code.getLast?.filter Instr.isTerminator

/-- The instructions before the terminator; all of them if there is none. -/
def body (b : Block) : List Instr :=
  if b.terminator?.isSome then b.code.dropLast else b.code

/-- Some instruction may raise an exception. -/
def canThrow (b : Block) : Bool := b.code.any Instr.canThrow

/-- Where control goes if the block, known as `self`, does nothing but jump to another block.
A jump to itself is an endless loop and no trampoline. -/
def trampoline? (b : Block) (self : BlockId) : Option BlockId :=
  match b.code with
  | [.jump target] => if target = self then none else some target
  | _ => none

/-- Change the terminator and leave the instructions before it. -/
def mapTerminator (f : Instr → Instr) (b : Block) : Block :=
  match b.terminator? with
  | some t => { b with code := b.body ++ [f t] }
  | none => b

/-- Name `new` wherever the terminator or the handler named `old`. -/
def redirect (old new : BlockId) (b : Block) : Block :=
  { b.mapTerminator (Instr.redirect old new) with handler := b.handler.map (retarget old new) }

/-- Change every instruction. -/
def mapCode (f : Instr → Instr) (b : Block) : Block := { b with code := b.code.map f }

/-! ## What a redirection does -/

/-- A redirection moves the handler of a block as any other target. -/
@[simp] theorem handler_redirect (old new : BlockId) (b : Block) :
    (b.redirect old new).handler = b.handler.map (retarget old new) := rfl

/-- A redirection leaves alone whether a block is exported. -/
@[simp] theorem exported_redirect (old new : BlockId) (b : Block) :
    (b.redirect old new).exported = b.exported := by
  cases h : b.terminator? <;> simp [redirect, mapTerminator, h]

/-- A block with a terminator is its body and the terminator. -/
theorem code_eq_of_terminator? {b : Block} {t : Instr} (h : b.terminator? = some t) :
    b.code = b.body ++ [t] := by
  have hlast : b.code.getLast? = some t := by
    simp only [terminator?, Option.filter_eq_some_iff] at h
    exact h.1
  simp only [body, h, Option.isSome_some, ↓reduceIte]
  obtain ⟨front, hfront⟩ := List.getLast?_eq_some_iff.mp hlast
  simp [hfront]

/-- What ends a block as its terminator is a terminator. -/
theorem isTerminator_of_terminator? {b : Block} {t : Instr} (h : b.terminator? = some t) :
    t.isTerminator = true := by
  simp only [terminator?, Option.filter_eq_some_iff] at h
  exact h.2

/-- A map of the last instruction that makes and unmakes no terminators maps the terminator. -/
@[simp] theorem terminator?_mapTerminator (f : Instr → Instr) (b : Block)
    (hf : ∀ i, (f i).isTerminator = i.isTerminator) :
    (b.mapTerminator f).terminator? = b.terminator?.map f := by
  cases h : b.terminator? with
  | none => simp [mapTerminator, h]
  | some t =>
    have ht := isTerminator_of_terminator? h
    have hm : b.mapTerminator f = { b with code := b.body ++ [f t] } := by
      simp only [mapTerminator, h]
    simp [hm, terminator?, hf, ht]

end Block

end Bytecode
