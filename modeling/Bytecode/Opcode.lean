/-!
# Opcodes and their static traits

An opcode is an instruction without its operands. What can be said of an instruction from its
opcode alone is its `Traits`: whether it ends a block, where control may go, whether it may raise
an exception, and whether it touches registers.
-/

namespace Bytecode

/-- The static properties of an opcode. -/
structure Traits where
  /-- It ends a block and stands last in it. -/
  terminator : Bool := false
  /-- It hands control to blocks of the function. -/
  branch : Bool := false
  /-- It may raise an exception, which the handler of its block receives. -/
  throws : Bool := false
  /-- It reads a register. -/
  readsRegister : Bool := false
  /-- It writes a register. -/
  writesRegister : Bool := false
  deriving DecidableEq, Repr

namespace Traits

/-- Every trait with its name and whether it holds, from the lowest bit up. -/
def flags (t : Traits) : List (String × Bool) :=
  [("TERMINATOR", t.terminator), ("BRANCH", t.branch), ("THROWS", t.throws),
    ("READS_REGISTER", t.readsRegister), ("WRITES_REGISTER", t.writesRegister)]

/-- The names of the traits that hold, in bit order. -/
def names (t : Traits) : List String :=
  t.flags.filterMap fun flag => if flag.2 then some flag.1 else none

/-- The traits as a bit set. -/
def bits (t : Traits) : Nat :=
  t.flags.foldr (fun flag acc => 2 * acc + flag.2.toNat) 0

end Traits

/-- The kinds of instruction, in their numbering order. -/
inductive Opcode where
  | pushUndefined | pushNull | pushBool | pushInt | pushConst
  | pop | dup | swap
  | loadReg | storeReg | move | increment
  | add | sub | mul | div | mod | looseEq | strictEq | lt | le | bitAnd | bitOr | shl
  | neg | not | typeof
  | getProp | setProp | getElem | setElem
  | call | construct | newObject | newArray | caught
  | jump | branch | jumpTable | ret | raise
  deriving DecidableEq, Repr

namespace Opcode

/-- All opcodes, in their numbering order. -/
def all : List Opcode :=
  [pushUndefined, pushNull, pushBool, pushInt, pushConst, pop, dup, swap, loadReg, storeReg, move,
    increment, add, sub, mul, div, mod, looseEq, strictEq, lt, le, bitAnd, bitOr, shl, neg, not,
    typeof, getProp, setProp, getElem, setElem, call, construct, newObject, newArray, caught, jump,
    branch, jumpTable, ret, raise]

/-- The list of all opcodes leaves none out. -/
theorem mem_all (o : Opcode) : o ∈ all := by cases o <;> decide

/-- The lowercase word that listings use. -/
def mnemonic : Opcode → String
  | pushUndefined => "push_undefined"
  | pushNull => "push_null"
  | pushBool => "push_bool"
  | pushInt => "push_int"
  | pushConst => "push_const"
  | pop => "pop"
  | dup => "dup"
  | swap => "swap"
  | loadReg => "load_reg"
  | storeReg => "store_reg"
  | move => "move"
  | increment => "increment"
  | add => "add"
  | sub => "sub"
  | mul => "mul"
  | div => "div"
  | mod => "mod"
  | looseEq => "eq"
  | strictEq => "strict_eq"
  | lt => "lt"
  | le => "le"
  | bitAnd => "bit_and"
  | bitOr => "bit_or"
  | shl => "shl"
  | neg => "neg"
  | not => "not"
  | typeof => "typeof"
  | getProp => "get_prop"
  | setProp => "set_prop"
  | getElem => "get_elem"
  | setElem => "set_elem"
  | call => "call"
  | construct => "construct"
  | newObject => "new_object"
  | newArray => "new_array"
  | caught => "catch"
  | jump => "jump"
  | branch => "branch"
  | jumpTable => "jump_table"
  | ret => "return"
  | raise => "throw"

/-- The name of the opcode: the words of its mnemonic, capitalised and joined. -/
def name (o : Opcode) : String :=
  String.join ((o.mnemonic.splitOn "_").map String.capitalize)

/-- What holds of every instruction with this opcode. -/
def traits : Opcode → Traits
  | loadReg => { readsRegister := true }
  | storeReg => { writesRegister := true }
  | move => { readsRegister := true, writesRegister := true }
  | increment => { readsRegister := true, writesRegister := true, throws := true }
  | add | sub | mul | div | mod | looseEq | strictEq | lt | le | bitAnd | bitOr | shl | neg
  | getProp | setProp | getElem | setElem | call | construct => { throws := true }
  | jump | branch | jumpTable => { terminator := true, branch := true }
  | ret => { terminator := true }
  | raise => { terminator := true, throws := true }
  | pushUndefined | pushNull | pushBool | pushInt | pushConst | pop | dup | swap | not | typeof
  | newObject | newArray | caught => {}

end Opcode

end Bytecode
