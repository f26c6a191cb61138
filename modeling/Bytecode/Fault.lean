import Bytecode.Index

/-!
# Faults

Everything that can be wrong with a function, by cause. Validation faults blame the function that
was handed in; the remaining ones say that an edit was refused or that an optimisation broke a
promise of its own. `Fault.message` holds every wording.
-/

/-- A result that has a value is that value. -/
theorem Except.exists_eq_ok_of_isSome {ε α : Type} {r : Except ε α}
    (h : r.toOption.isSome = true) : ∃ a, r = .ok a := by
  cases r with
  | error e => contradiction
  | ok a => exact ⟨a, rfl⟩

namespace Bytecode

/-- A reason to reject a function or an edit of it. -/
inductive Fault where
  /-- Two paths reach an offset with different stack heights. -/
  | stackHeightMismatch (offset expected found : Nat)
  /-- An instruction pops more than the stack holds. -/
  | stackUnderflow (offset height pops : Nat)
  /-- A return does not leave exactly its result. -/
  | invalidReturnHeight (offset height : Nat)
  | emptyBlock (block : BlockId)
  | duplicateBlock (block : BlockId)
  | missingTerminator (block : BlockId)
  | misplacedTerminator (block : BlockId) (offset : Nat)
  /-- A block names one that the function does not have. -/
  | invalidBlockReference (block target : BlockId)
  /-- A dispatch names a constant that is no jump table. -/
  | invalidJumpTable (block : BlockId) (offset : Nat) (index : ConstIndex)
  | registerOutOfRange (register : Register) (block : BlockId) (offset : Nat)
  | registerReadBeforeWrite (register : Register) (block : BlockId) (offset : Nat)
  | emptyFunction
  /-- A block was asked for that the function does not have. -/
  | foreignBlock (block : BlockId) (function : String)
  /-- A new layout names a dead block, or one block twice. -/
  | invalidLayoutEntry (block : BlockId)
  /-- A new layout leaves blocks out. -/
  | invalidLayoutLength (listed expected : Nat)
  /-- Merging still found work after its last round. -/
  | mergeUnfinished (rounds : Nat) (function : String)
  /-- Two blocks with different handlers were to be fused. -/
  | chainCrossesHandler (link head : BlockId)
  /-- The optimised function is no longer well formed. -/
  | invalidAfterPasses (function : String) (cause : Fault)
  /-- The optimised function no longer balances its stack. -/
  | unbalancedAfterPasses (function : String) (cause : Fault)
  deriving DecidableEq

namespace Fault

/-- The fault lies in the optimiser or its caller, not in the function. -/
def isInternal : Fault → Bool
  | foreignBlock .. | invalidLayoutEntry .. | invalidLayoutLength .. | mergeUnfinished ..
  | chainCrossesHandler .. | invalidAfterPasses ..
  | unbalancedAfterPasses .. => true
  | _ => false

/-- The fault in words. -/
def message : Fault → String
  | stackHeightMismatch offset expected found =>
    s!"Stack height mismatch at offset {offset}: expected {expected}, found {found}"
  | stackUnderflow offset height pops =>
    s!"Stack underflow at offset {offset}: height {height}, instruction pops {pops}"
  | invalidReturnHeight offset height =>
    s!"Return at offset {offset} with stack height {height}, expected 1"
  | emptyBlock block => s!"Block {BlockId.label block} is empty"
  | duplicateBlock block => s!"Block {BlockId.label block} is declared twice"
  | missingTerminator block => s!"Block {BlockId.label block} does not end in a terminator"
  | misplacedTerminator block offset =>
    s!"Block {BlockId.label block} has a terminator at position {offset} before its end"
  | invalidBlockReference block target =>
    s!"Block {BlockId.label block} references {BlockId.label target}, " ++
      "which is not part of the function"
  | invalidJumpTable block offset index =>
    s!"Block {BlockId.label block} offset {offset}: constant {index} is not a jump table"
  | registerOutOfRange register block offset =>
    s!"Block {BlockId.label block} offset {offset}: " ++
      s!"register {Register.label register} is out of range"
  | registerReadBeforeWrite register block offset =>
    s!"Register {Register.label register} read before write in block " ++
      s!"{BlockId.label block} at offset {offset}"
  | emptyFunction => "Function has no blocks"
  | foreignBlock block function =>
    s!"Invariant violation: block {BlockId.label block} is not part of {function}"
  | invalidLayoutEntry block =>
    s!"Invariant violation: invalid layout entry {BlockId.label block}"
  | invalidLayoutLength listed expected =>
    s!"Invariant violation: layout lists {listed} blocks, function has {expected}"
  | mergeUnfinished rounds function =>
    s!"Invariant violation: block merger did not converge within {rounds} rounds on {function}"
  | chainCrossesHandler link head =>
    s!"Invariant violation: chain link {BlockId.label link} crosses the handler boundary of " ++
      BlockId.label head
  | invalidAfterPasses function cause =>
    s!"Invariant violation: {function}: passes produced an invalid unit: {cause.message}"
  | unbalancedAfterPasses function cause =>
    s!"Invariant violation: {function}: passes broke the stack discipline: {cause.message}"

end Fault

end Bytecode
