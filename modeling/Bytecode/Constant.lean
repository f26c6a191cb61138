import Bytecode.JumpTable
import Bytecode.Number
import Bytecode.Text.Quoted

/-!
# Constants

A function's pool holds numbers, strings and jump tables. Only jump tables name blocks, so only
they change when a block is replaced by another.
-/

namespace Bytecode

/-- An entry of the constant pool. -/
inductive Constant where
  | number (value : Number)
  | string (value : String)
  | table (value : JumpTable)
  deriving DecidableEq

namespace Constant

/-- The jump table, if the constant is one. -/
def table? : Constant → Option JumpTable
  | table value => some value
  | _ => none

/-- Replace the blocks that the constant names. -/
def mapTargets (f : BlockId → BlockId) : Constant → Constant
  | table value => table (value.mapTargets f)
  | c => c

/-- Name `new` wherever the constant named `old`. -/
def redirect (old new : BlockId) (c : Constant) : Constant := c.mapTargets (retarget old new)

/-- Equality of constants, with numbers compared numerically. -/
def same : Constant → Constant → Bool
  | number x, number y => x.same y
  | c, d => c = d

/-- The constant as a listing shows it. -/
def text : Constant → String
  | number value => "number " ++ value.text
  | string value => "string " ++ Quoted.encode value
  | table value => value.text

end Constant

end Bytecode
