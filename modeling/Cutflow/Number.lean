/-!
# Numbers

The arithmetic on doubles that selections need beyond the machine's own operators: the parts of a
double, the double nearest to a rational, remainders and truth values.

## The model

A finite double is `±m · 2 ^ q` with a natural significand `m < 2 ^ 53` and an exponent
`q ≥ -1074`. The parts are read off the 64 bits of its binary64 form: one bit for the sign,
eleven for the exponent and fifty-two for the fraction, in which a normal number leaves out
the leading one of its significand.

Every nonnegative rational has a nearest double; of two equally near ones the one with the even
significand is taken, and from halfway above the largest finite double on it is infinity.
`binaryExponent r` is the `e` with `2 ^ e ≤ r < 2 ^ (e + 1)`. The doubles near `r` are the
multiples of `2 ^ q` for `q = max (e - 52) (-1074)`, so `r / 2 ^ q` is rounded to a natural
number `m`. The bits of `m · 2 ^ q` are `(q + 1074) · 2 ^ 52 + m`: the leading one of a normal
significand counts as one more exponent step, and a significand that rounding carries to
`2 ^ 53` runs over into the next exponent by itself.
-/

namespace Cutflow.Number

/-! ### The parts of a double -/

/-- The weight of the sign bit. -/
def signWeight : Nat := 0x8000000000000000

/-- The weight of the last exponent bit, `2 ^ 52`: the fraction bits are the ones below it. -/
def exponentWeight : Nat := 0x0010000000000000

/-- The bits of a double without its sign, as a number. -/
def magnitude (x : Float) : Nat := x.toBits.toNat % signWeight

/-- Whether the sign bit is set; it is set for `-0` and clear for NaN. -/
def isNegative (x : Float) : Bool := signWeight ≤ x.toBits.toNat

/-- The significand `m` of a finite double `±m · 2 ^ q`. -/
def significand (x : Float) : Nat :=
  if magnitude x < exponentWeight then magnitude x
  else exponentWeight + magnitude x % exponentWeight

/-- The exponent `q` of a finite double `±m · 2 ^ q`. -/
def exponent (x : Float) : Int :=
  (max (magnitude x / exponentWeight) 1 : Nat) - 1075

/-- The double with the given sign and magnitude bits. -/
def ofMagnitude (negative : Bool) (bits : Nat) : Float :=
  Float.ofBits (UInt64.ofNat (if negative then signWeight + bits else bits))

/-- The magnitude bits of an infinity; every finite double has fewer. -/
def infiniteMagnitude : Nat := 0x7ff0000000000000

/-! ### Rounding to the nearest double -/

/-- The nearest natural number to `num / den`, a half going to the even one. -/
def roundRatio (num den : Nat) : Nat :=
  let n := num / den
  match compare (2 * (num % den)) den with
  | .lt => n
  | .eq => n + n % 2
  | .gt => n + 1

/-- The `e` with `2 ^ e ≤ r < 2 ^ (e + 1)`, for positive `r`. -/
def binaryExponent (r : Rat) : Int :=
  let e : Int := r.num.toNat.log2 - r.den.log2
  if (2 : Rat) ^ e ≤ r then e else e - 1

/-- The exponent of the last place of the doubles near `r`. -/
def lastPlace (r : Rat) : Int := max (binaryExponent r - 52) (-1074)

/-- The magnitude bits of the double nearest to a nonnegative rational. -/
def nearestMagnitude (r : Rat) : Nat :=
  if r.num = 0 then 0
  else
    let q := lastPlace r
    let s := r / (2 : Rat) ^ q
    min ((q + 1074).toNat * exponentWeight + roundRatio s.num.toNat s.den) infiniteMagnitude

/-- The double nearest to a nonnegative rational. -/
def nearest (r : Rat) : Float := ofMagnitude false (nearestMagnitude r)

/-! ### Remainders

The remainder of a division whose quotient is truncated: `x - n · y` for the whole number `n`
next to `x / y` on the side of zero. It has the sign of `x` and is always a double, so it is
computed exactly, as a remainder of natural numbers over the finer of the two last places. -/

/-- What invalid operations answer. -/
def nan : Float := Float.ofBits 0x7ff8000000000000

/-- The remainder of `x` by `y`; NaN for an infinite `x` or a zero `y`. -/
def remainder (x y : Float) : Float :=
  if x.isNaN || y.isNaN || x.isInf || y == 0 then nan
  else if y.isInf then x
  else
    let q := min (exponent x) (exponent y)
    let n := significand x <<< (exponent x - q).toNat
    let d := significand y <<< (exponent y - q).toNat
    ofMagnitude (isNegative x) (nearestMagnitude ((n % d : Nat) * (2 : Rat) ^ q))

/-! ### Truth values

Selections are computed with numbers: any number but zero counts as true, NaN included, and a
test answers `1` or `0`. -/

/-- Whether a number counts as true. -/
def isTrue (x : Float) : Bool := x != 0

/-- The number a test answers with. -/
def ofTruth (b : Bool) : Float := if b then 1 else 0

theorem isTrue_ofTruth (b : Bool) : isTrue (ofTruth b) = b := by
  cases b <;> decide

end Cutflow.Number
