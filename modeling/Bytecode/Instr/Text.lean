import Bytecode.Instr

/-!
# Texts of an instruction

A listing shows an instruction as its mnemonic and operands (`move r3, r1`). The verbose form names
the opcode and the kind of each operand; an operand that has a name is shown with it.
-/

namespace Bytecode

/-- A truth value as a word. -/
private def boolWord (b : Bool) : String := if b then "true" else "false"

/-- Operands that have names, in braces. -/
private def named (fields : List (String × String)) : String :=
  " \x7b " ++ ", ".intercalate (fields.map fun field => field.1 ++ ": " ++ field.2) ++ " \x7d"

/-- An operand without a name, in parentheses. -/
private def unnamed (operand : String) : String := "(" ++ operand ++ ")"

namespace Instr

/-- The operands as a listing shows them. -/
def operandText : Instr → String
  | push (.bool value) => " " ++ boolWord value
  | push (.int value) => " " ++ toString value.toInt
  | push (.pooled index) | getProp index | setProp index => " " ++ ConstIndex.label index
  | loadReg reg | storeReg reg | increment reg => " " ++ Register.label reg
  | move dst src => " " ++ Register.label dst ++ ", " ++ Register.label src
  | call count | construct count | newArray count => " " ++ toString count.toNat
  | jump target => " " ++ BlockId.label target
  | branch ifTrue ifFalse => " " ++ BlockId.label ifTrue ++ ", " ++ BlockId.label ifFalse
  | jumpTable table default =>
    " " ++ ConstIndex.label table ++ ", default " ++ BlockId.label default
  | _ => ""

/-- The instruction as a listing shows it. -/
def text (i : Instr) : String := i.opcode.mnemonic ++ i.operandText

/-- The operands with their kinds and names. -/
def verboseOperands : Instr → String
  | push (.bool value) => unnamed (boolWord value)
  | push (.int value) => unnamed (toString value.toInt)
  | push (.pooled index) | getProp index | setProp index => unnamed (toString index)
  | loadReg reg | storeReg reg | increment reg => unnamed (Register.verbose reg)
  | move dst src => named [("dst", Register.verbose dst), ("src", Register.verbose src)]
  | call argc | construct argc => named [("argc", toString argc.toNat)]
  | newArray count => named [("count", toString count.toNat)]
  | jump target => named [("target", BlockId.verbose target)]
  | branch ifTrue ifFalse =>
    named [("if_true", BlockId.verbose ifTrue), ("if_false", BlockId.verbose ifFalse)]
  | jumpTable table default =>
    named [("table", toString table), ("default", BlockId.verbose default)]
  | _ => ""

/-- The instruction spelled out. -/
def verbose (i : Instr) : String := i.opcode.name ++ i.verboseOperands

end Instr

end Bytecode
