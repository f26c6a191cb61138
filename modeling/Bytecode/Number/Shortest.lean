/-!
# Shortest decimals of binary numbers

A positive binary number `mant * 2 ^ exp` stands for every real that rounds to it: an interval
whose ends lie halfway to the neighbouring numbers, and belong to it when `mant` is even. Its
shortest decimal is the coarsest power of ten that has a multiple in the interval, and of the
multiples there the one nearest to the number; an exact tie goes up. All tests are exact, in
natural numbers.
-/

namespace Bytecode.Shortest

/-- A positive binary number `mant * 2 ^ exp`. -/
structure Binary where
  mant : Nat
  exp : Int
  /-- The next smaller number is only half as far away as the next larger one. -/
  closeBelow : Bool

/-- A decimal `digits * 10 ^ exp`. -/
structure Decimal where
  digits : Nat
  exp : Int

namespace Binary

/-- The factor that turns quarter units of the last binary place into the scale of `tests`. -/
private def factor (b : Binary) (e : Int) : Nat :=
  Nat.pow 2 (b.exp - 2).toNat * Nat.pow 10 (-e).toNat

/-- What one unit of the decimal place `10 ^ e` measures in that scale. -/
private def unit (b : Binary) (e : Int) : Nat := Nat.pow 2 (2 - b.exp).toNat * Nat.pow 10 e.toNat

/-- The number itself in that scale. -/
private def centre (b : Binary) (e : Int) : Nat := 4 * b.mant * b.factor e

/-- The lower end of the interval in that scale. -/
private def lower (b : Binary) (e : Int) : Nat :=
  (4 * b.mant - if b.closeBelow then 1 else 2) * b.factor e

/-- The upper end of the interval in that scale. -/
private def upper (b : Binary) (e : Int) : Nat := (4 * b.mant + 2) * b.factor e

/-- The decimal `n * 10 ^ e` lies in the interval. -/
def reads (b : Binary) (e : Int) (n : Nat) : Bool :=
  let x := n * b.unit e
  if b.mant % 2 = 0 then b.lower e ≤ x && x ≤ b.upper e else b.lower e < x && x < b.upper e

/-- The multiple of `10 ^ e` in the interval that is nearest to the number, if there is one. -/
def nearest? (b : Binary) (e : Int) : Option Nat :=
  let below := b.centre e / b.unit e
  let above := below + 1
  match b.reads e below, b.reads e above with
  | true, true =>
    if 2 * (b.centre e - below * b.unit e) < b.unit e then some below else some above
  | true, false => some below
  | false, true => some above
  | false, false => none

/-- Try the places `10 ^ e`, `10 ^ (e - 1)`, … in turn. -/
def searchFrom (b : Binary) : Nat → Int → Decimal
  | 0, e => ⟨0, e⟩
  | fuel + 1, e =>
    match b.nearest? e with
    | some n => ⟨n, e⟩
    | none => b.searchFrom fuel (e - 1)

/-- The shortest decimal of a double. The largest double is below `10 ^ 309`, and the place
`10 ^ -1074` writes every double exactly, so the search ends in between. -/
def shortest (b : Binary) : Decimal := b.searchFrom 1400 309

end Binary

/-- The decimal written out, without an exponent. -/
def Decimal.text (d : Decimal) : String :=
  let digits := toString d.digits
  let places := (-d.exp).toNat
  if places = 0 then digits ++ "".pushn '0' d.exp.toNat
  else if digits.length ≤ places then
    "0." ++ "".pushn '0' (places - digits.length) ++ digits
  else
    let chars := digits.toList
    let whole := digits.length - places
    String.ofList (chars.take whole) ++ "." ++ String.ofList (chars.drop whole)

end Bytecode.Shortest
