import Cutflow.Number

/-!
# Decimals

The unsigned decimal numbers in which texts write doubles: their reading as the double nearest to
the exact value, the shortest decimal that reads back as a given double, and the layouts in which
texts set it down.

## The model

Of the decimals that read back as a double the one with the fewest digits is written, and of those
the nearest to it. A finite double has an exact decimal expansion (`exact`). Cut after its first
`n` digits, the expansion lies between two decimals of `n` digits (`neighbours`, nearer one first);
the search takes `n = 1, 2, …` and stops at the first neighbour that reads back as the double. It
ends with the whole expansion, which has no neighbours to choose from: it *is* the double. When
both neighbours are equally near, a `Tie` says which one counts as the nearer.

What differs from text to text is collected in a `Layout`.
-/

namespace Cutflow

/-- The number `digits · 10 ^ exponent`. -/
structure Decimal where
  /-- The digits, read as one natural number. -/
  digits : Nat
  /-- The power of ten of the last digit. -/
  exponent : Int
  deriving DecidableEq

namespace Decimal

/-- The exact value. -/
def toRat (d : Decimal) : Rat := d.digits * (10 : Rat) ^ d.exponent

/-- The digits as characters, without leading zeros. -/
def digitChars (d : Decimal) : List Char := Nat.toDigits 10 d.digits

/-- The power of ten of the first digit. -/
def leading (d : Decimal) : Int := d.exponent + d.digitChars.length - 1

/-- The decimal written as digits before and after a point and a power of ten. -/
def ofParts (whole fraction : List Char) (power : Int) : Decimal :=
  ⟨Nat.ofDigitChars 10 (whole ++ fraction) 0, power - fraction.length⟩

/-- Moves the zeros at the end of the digits into the exponent. -/
def trim (d : Decimal) : Decimal :=
  if d.digits ≠ 0 ∧ d.digits % 10 = 0 then trim ⟨d.digits / 10, d.exponent + 1⟩ else d
termination_by d.digits
decreasing_by omega

/-- The nearest double. Values from `10 ^ 310` on are infinite and those below `10 ^ (-330)` are
zero; both are told by the first digit's place, so no power of a far exponent is formed. -/
def toFloat (d : Decimal) : Float :=
  if d.digits = 0 ∨ d.leading < -330 then Number.ofMagnitude false 0
  else if 310 ≤ d.leading then Number.ofMagnitude false Number.infiniteMagnitude
  else Number.nearest d.toRat

/-! ### Reading

The parts of which texts make up a number: digits, a fraction behind a point, an exponent behind
a mark. Every reader also says how many characters its part has. -/

/-- The fraction at the front of a text: its digits, what follows, and how long point and digits
are together. Without a point there is no fraction. -/
def fractionPart : List Char → List Char × List Char × Nat
  | '.' :: cs =>
    let digits := cs.takeWhile Char.isDigit
    (digits, cs.dropWhile Char.isDigit, digits.length + 1)
  | cs => ([], cs, 0)

/-- The sign of an exponent: whether it is negative, what follows, and its length. -/
def exponentSign : List Char → Bool × List Char × Nat
  | '+' :: cs => (false, cs, 1)
  | '-' :: cs => (true, cs, 1)
  | cs => (false, cs, 0)

/-- The power of ten behind an exponent mark at the front of a text and the length of the whole
exponent; `none` when the mark has no digits. Without a mark the power is zero. -/
def exponentPart : List Char → Option (Int × Nat)
  | [] => some (0, 0)
  | c :: cs =>
    if c = 'e' || c = 'E' then
      let (negative, rest, signLength) := exponentSign cs
      let digits := rest.takeWhile Char.isDigit
      let power : Int := Nat.ofDigitChars 10 digits 0
      if digits.isEmpty then none
      else some (if negative then -power else power, 1 + signLength + digits.length)
    else some (0, 0)

/-! ### Shortest decimals -/

/-- Which of two equally near decimals is taken. -/
inductive Tie where
  /-- The greater one. -/
  | up
  /-- The one with an even last digit. -/
  | even
  deriving DecidableEq

/-- The exact value of a finite double without its sign. -/
def exact (x : Float) : Decimal :=
  let m := Number.significand x
  let q := Number.exponent x
  if m = 0 then ⟨0, 0⟩
  else if 0 ≤ q then ⟨m <<< q.toNat, 0⟩
  else ⟨m * Nat.pow 5 (-q).toNat, q⟩

/-- Whether `n / unit` is nearer to its floor than to the next number, a half going by the tie. -/
def Tie.roundsDown (tie : Tie) (n unit : Nat) : Bool :=
  match compare (2 * (n % unit)) unit, tie with
  | .lt, _ => true
  | .eq, .even => n / unit % 2 == 0
  | .eq, .up => false
  | .gt, _ => false

/-- The two decimals with `k` digits fewer than `d` between which `d` lies, nearer one first. -/
def neighbours (tie : Tie) (d : Decimal) (k : Nat) : List Decimal :=
  let unit := Nat.pow 10 k
  let lower : Decimal := trim ⟨d.digits / unit, d.exponent + k⟩
  let upper : Decimal := trim ⟨d.digits / unit + 1, d.exponent + k⟩
  if tie.roundsDown d.digits unit then [lower, upper] else [upper, lower]

/-- The first neighbour that reads back as `x`, leaving out `k` digits of `d`, then `k - 1`, and
so on; `d` itself when nothing can be left out. -/
def shorten (tie : Tie) (x : Float) (d : Decimal) : Nat → Decimal
  | 0 => d
  | k + 1 =>
    match (neighbours tie d (k + 1)).find? fun c => c.toFloat = x with
    | some c => c
    | none => shorten tie x d k

/-- The shortest decimal that reads back as a finite double, its sign left aside. -/
def shortest (tie : Tie) (x : Float) : Decimal :=
  shorten tie x.abs (exact x) ((exact x).digitChars.length - 1)

/-! ### Layouts -/

/-- The choices a number format makes. -/
structure Layout where
  /-- Which of two equally near shortest decimals is written. -/
  tie : Tie
  /-- Whether a number is written without an exponent, by the power of ten of its first digit. -/
  positional : Int → Bool
  /-- Whether whole numbers written without an exponent end in `.0`. -/
  wholePoint : Bool
  /-- Whether an exponent that is not negative is written with a plus sign. -/
  exponentPlus : Bool
  /-- What is written for NaN, for infinity and for negative infinity. -/
  nan : String
  infinity : String
  minusInfinity : String

/-- The digits with the point where the exponent puts it. -/
def positionalChars (wholePoint : Bool) (d : Decimal) : List Char :=
  if 0 ≤ d.exponent then
    d.digitChars ++ List.replicate d.exponent.toNat '0' ++ (if wholePoint then ['.', '0'] else [])
  else
    let places := (-d.exponent).toNat
    let digits := List.replicate (places + 1 - d.digitChars.length) '0' ++ d.digitChars
    let whole := digits.length - places
    digits.take whole ++ '.' :: digits.drop whole

/-- The sign and the digits of an exponent. -/
def exponentChars (plus : Bool) (e : Int) : List Char :=
  (if e < 0 then ['-'] else if plus then ['+'] else []) ++ Nat.toDigits 10 e.natAbs

/-- One digit, the others behind a point, and the power of ten of the first digit. -/
def scientificChars (plus : Bool) (d : Decimal) : List Char :=
  d.digitChars.take 1
    ++ (if d.digitChars.length ≤ 1 then [] else '.' :: d.digitChars.drop 1)
    ++ 'e' :: exponentChars plus d.leading

/-- The unsigned decimal as the layout writes it. -/
def Layout.chars (l : Layout) (d : Decimal) : List Char :=
  if l.positional d.leading then positionalChars l.wholePoint d
  else scientificChars l.exponentPlus d

/-- A double as the layout writes it. -/
def Layout.write (l : Layout) (x : Float) : String :=
  if x.isNaN then l.nan
  else if x.isInf then (if Number.isNegative x then l.minusInfinity else l.infinity)
  else
    String.ofList ((if Number.isNegative x then ['-'] else []) ++ l.chars (shortest l.tie x))

end Decimal

end Cutflow
