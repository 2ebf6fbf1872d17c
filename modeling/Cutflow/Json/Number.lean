import Cutflow.Decimal

/-!
# JSON numbers

Numbers are written with the shortest digits that are nearest to them, and read by arithmetic on
doubles: the leading digits make up a significand below `2 ^ 64`, and the double nearest to it is
multiplied or divided by a power of ten.

## The model

`kept` says which digits of a text count and what power of ten belongs to them; `scale?` is the
multiplication or division. Each step rounds, so what is read is close to the number in the text
but need not be the nearest double. It is exact where the significand and the power of ten are
doubles themselves and nothing is left out. A number too great for a double cannot be read.
-/

namespace Cutflow.Json

/-- Numbers in JSON: a point in every number without an exponent, a signed exponent from
`10 ^ 16` on and below `10 ^ (-5)`, and no number at all for NaN and the infinities. -/
def layout : Decimal.Layout where
  tie := .even
  positional p := -5 ≤ p && p ≤ 15
  wholePoint := true
  exponentPlus := true
  nan := "null"
  infinity := "null"
  minusInfinity := "null"

/-! ### The digits that count -/

/-- What significands stay below: `2 ^ 64`. -/
def significandBound : Nat := 0x10000000000000000

/-- Appends digits to a significand up to the first one that would take it to the bound; the
significand and the digits left over. -/
def gather (significand : Nat) : List Char → Nat × List Char
  | [] => (significand, [])
  | c :: cs =>
    let longer := Nat.ofDigitChars 10 [c] significand
    if longer < significandBound then gather longer cs else (significand, c :: cs)

/-- The decimal that stands for the digits of a number. A digit left over from the whole part
counts as a zero, one left over from the fraction does not count; the fraction goes on where the
whole part has stopped. -/
def kept (whole fraction : List Char) (power : Int) : Decimal :=
  let (significand, passed) := gather 0 whole
  let (significand, dropped) := gather significand fraction
  ⟨significand, power + passed.length + dropped.length - fraction.length⟩

/-! ### Scaling -/

/-- The exponent of the greatest power of ten that is finite as a double. -/
def greatestPower : Nat := 308

/-- The double nearest to `10 ^ n`. -/
def powerOfTen (n : Nat) : Float := Decimal.toFloat ⟨1, n⟩

/-- `x · 10 ^ e` for a number `x` that is not negative, by one multiplication, or by divisions by
the greatest power of ten and one more; `none` when the result would be too great. -/
def scale? (x : Float) (e : Int) : Option Float :=
  if e.natAbs ≤ greatestPower then
    if 0 ≤ e then
      let y := x * powerOfTen e.natAbs
      if y.isInf then none else some y
    else some (x / powerOfTen e.natAbs)
  else if x == 0 then some x
  else if 0 ≤ e then none
  else scale? (x / powerOfTen greatestPower) (e + greatestPower)
termination_by e.natAbs
decreasing_by
  unfold greatestPower at *
  omega

/-- The double read for a decimal. -/
def ofDecimal? (d : Decimal) : Option Float := scale? (Number.nearest d.digits) d.exponent

/-! ### Reading a number -/

/-- The whole part of a number: a zero, or digits that do not begin with one. -/
def wholeDigits (cs : List Char) : List Char :=
  match cs with
  | '0' :: _ => ['0']
  | cs => cs.takeWhile Char.isDigit

/-- The unsigned number at the front of a text, and its length. -/
def unsignedNumber? (cs : List Char) : Option (Float × Nat) := do
  let whole := wholeDigits cs
  let (fraction, rest, fractionLength) := Decimal.fractionPart (cs.drop whole.length)
  let (power, exponentLength) ← Decimal.exponentPart rest
  if whole.isEmpty || fractionLength = 1 then none
  else
    let x ← ofDecimal? (kept whole fraction power)
    return (x, whole.length + fractionLength + exponentLength)

/-- The number at the front of a text, and its length. -/
def number? : List Char → Option (Float × Nat)
  | '-' :: cs => (unsignedNumber? cs).map fun (x, n) => (-x, n + 1)
  | cs => unsignedNumber? cs

end Cutflow.Json
