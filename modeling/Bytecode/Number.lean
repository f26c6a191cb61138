import Bytecode.Number.Shortest

/-!
# Numbers of the constant pool

A number is a 64-bit binary floating-point value, held as its bit pattern: a sign bit, eleven bits
of exponent and fifty-two of fraction. Its text is the shortest decimal that reads back.
-/

namespace Bytecode

/-- A floating-point number by its bit pattern. -/
structure Number where
  bits : UInt64
  deriving DecidableEq

namespace Number

/-- The sign bit is set. -/
def isNegative (x : Number) : Bool := 9223372036854775808 ≤ x.bits.toNat

/-- The eleven bits of the biased exponent. -/
def exponentField (x : Number) : Nat := x.bits.toNat / 4503599627370496 % 2048

/-- The fifty-two bits of the fraction. -/
def fraction (x : Number) : Nat := x.bits.toNat % 4503599627370496

/-- It is no number at all. -/
def isNaN (x : Number) : Bool := x.exponentField = 2047 && x.fraction ≠ 0

/-- It is an infinity. -/
def isInfinite (x : Number) : Bool := x.exponentField = 2047 && x.fraction = 0

/-- It is one of the two zeros. -/
def isZero (x : Number) : Bool := x.exponentField = 0 && x.fraction = 0

/-- Numeric equality: the two zeros are equal, and what is no number equals nothing. -/
def same (x y : Number) : Bool := !x.isNaN && (x = y || x.isZero && y.isZero)

/-- The size of a finite number other than zero. The smallest exponent field has no hidden bit. -/
def magnitude (x : Number) : Shortest.Binary :=
  if x.exponentField = 0 then ⟨x.fraction, -1074, false⟩
  else
    ⟨4503599627370496 + x.fraction, (x.exponentField : Int) - 1075,
      x.fraction = 0 && 1 < x.exponentField⟩

/-- The text of the number without its sign. -/
def magnitudeText (x : Number) : String :=
  if x.isInfinite then "inf"
  else if x.isZero then "0"
  else x.magnitude.shortest.text

/-- The text of the number: the fewest digits that read back, never with an exponent. -/
def text (x : Number) : String :=
  if x.isNaN then "NaN"
  else if x.isNegative then "-" ++ x.magnitudeText
  else x.magnitudeText

end Number

end Bytecode
