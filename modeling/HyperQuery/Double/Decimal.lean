import HyperQuery.Double.Basic

/-!
# Decimal texts of doubles

The shortest decimal that reads back as the same double (`shortest`, where a `Tie` decides between two that are equally
near) and the text made of it (`text`), the text with
a fixed number of decimal places (`fixed`), and the double that a decimal stands for (`ofDecimal` rounds once,
`ofScientific?` rounds the digits and then the scaled value).
-/

namespace HyperQuery

/-- A positive decimal number `digits * 10^exponent`. -/
structure Decimal where
  digits : Nat
  exponent : Int
  deriving DecidableEq

namespace Decimal

/-- The power of ten with a natural exponent. -/
def tenTo (e : Nat) : Nat := Nat.pow 10 e

/-- The number as a quotient, scaled by `10^shift`. -/
def scaledBy (d : Decimal) (shift : Int) : Nat × Nat :=
  let e := d.exponent + shift
  (d.digits * tenTo e.toNat, tenTo (-e).toNat)

/-- Drops trailing zeros of the digits, at most `fuel` of them. -/
def stripZeros : Nat → Decimal → Decimal
  | 0, d => d
  | n + 1, d => if d.digits ≠ 0 ∧ d.digits % 10 = 0 then stripZeros n ⟨d.digits / 10, d.exponent + 1⟩ else d

/-- The digits as characters. -/
def digitChars (d : Decimal) : List Char := Nat.toDigits 10 d.digits

/-- The exponent of the first digit. -/
def leadingExponent (d : Decimal) : Int := d.exponent + (d.digitChars.length : Int) - 1

/-- The digits before and after the point, without an exponent; there is at least one before it. -/
def wholeAndFraction (d : Decimal) : List Char × List Char :=
  let ds := d.digitChars
  if 0 ≤ d.exponent then (ds ++ List.replicate d.exponent.toNat '0', [])
  else
    let places := (-d.exponent).toNat
    if places < ds.length then (ds.take (ds.length - places), ds.drop (ds.length - places))
    else (['0'], List.replicate (places - ds.length) '0' ++ ds)

/-- The number written without an exponent. -/
def positional (d : Decimal) : String :=
  let (whole, fraction) := d.wholeAndFraction
  String.ofList (whole ++ if fraction.isEmpty then [] else '.' :: fraction)

end Decimal

namespace Double

/-! ### The shortest decimal -/

/-- The reals that round to a double of positive value, in quarters of a unit: the value, how far down and up
they reach, and whether the ends belong to them. -/
structure Neighbourhood where
  centre : Nat
  below : Nat
  above : Nat
  closed : Bool

/-- The neighbourhood of a finite double. The gap below a power of two is half the gap above it. -/
def neighbourhood (x : Double) : Neighbourhood :=
  let gap := 1 <<< (x.exponent - 1)
  { centre := 4 * x.units
    below := if x.fraction = 0 ∧ 1 < x.exponent then gap else 2 * gap
    above := 2 * gap
    closed := x.magnitude % 2 = 0 }

/-- Whether `num / den` quarters of a unit lie in the neighbourhood. -/
def Neighbourhood.contains (b : Neighbourhood) (num den : Nat) : Bool :=
  let low := (b.centre - b.below) * den
  let high := (b.centre + b.above) * den
  if b.closed then decide (low ≤ num ∧ num ≤ high) else decide (low < num ∧ num < high)

/-- The number of quarter units in `10^e`, as a quotient. -/
def quartersOfPower (e : Int) : Nat × Nat := (4 * one * Decimal.tenTo e.toNat, Decimal.tenTo (-e).toNat)

/-- Which of two neighbouring decimals stands for the value halfway between them. -/
inductive Tie
  /-- The larger one. -/
  | up
  /-- The one whose last digit is even. -/
  | even
  deriving DecidableEq

/-- Whether the decimal below a value halfway is taken, given its digits. -/
def Tie.takesLower (tie : Tie) (low : Nat) : Bool :=
  match tie with
  | .up => false
  | .even => decide (low % 2 = 0)

/-- The point of the grid of multiples of `10^e` that is nearest to the value among those in its
neighbourhood. -/
def onGrid (tie : Tie) (b : Neighbourhood) (e : Int) : Option Decimal :=
  let (num, den) := quartersOfPower e
  let low := b.centre * den / num
  let high := low + 1
  let inLow := b.contains (low * num) den && low ≠ 0
  let inHigh := b.contains (high * num) den
  let down := b.centre * den - low * num
  let up := high * num - b.centre * den
  let lowNearer := decide (down < up) || (decide (down = up) && tie.takesLower low)
  if inLow && (!inHigh || lowNearer) then some ⟨low, e⟩
  else if inHigh then some ⟨high, e⟩
  else none

/-- The exponent `k` with `10^k ≤ x < 10^(k+1)` for a finite double of positive value. -/
def decimalExponent (x : Double) : Int :=
  ((Nat.toDigits 10 (x.units * Decimal.tenTo 400 / one)).length : Int) - 401

/-- How many digits are tried: enough for the exact decimal expansion of every double. -/
def digitLimit : Nat := 1500

/-- The decimal with the fewest digits that rounds to the given finite double of positive value, and of those
the nearest. -/
def shortest (tie : Tie) (x : Double) : Decimal :=
  let b := x.neighbourhood
  let k := x.decimalExponent
  let found := (List.range digitLimit).findSome? fun (n : Nat) => onGrid tie b (k - (n : Int))
  (found.getD ⟨0, 0⟩).stripZeros digitLimit

/-! ### Texts -/

/-- The sign in front of a number. -/
def signText (x : Double) : String := if x.negative then "-" else ""

/-- The shortest digits that read back, a tie going up, never with an exponent: `1`, `0.1`, `-0`, `NaN`, `inf`. -/
def text (x : Double) : String :=
  if x.isNaN then "NaN"
  else if x.isInfinite then x.signText ++ "inf"
  else if x.isZero then x.signText ++ "0"
  else x.signText ++ (x.shortest .up).positional

/-- The exact value rounded to `places` decimal places, half to even. -/
def fixed (places : Nat) (x : Double) : String :=
  if x.isNaN then "NaN"
  else if x.isInfinite then x.signText ++ "inf"
  else
    let n := roundHalfEven (x.units * Decimal.tenTo places) one
    let ds := Nat.toDigits 10 n
    let ds := List.replicate (places + 1 - ds.length) '0' ++ ds
    let point := if places = 0 then [] else ['.']
    x.signText ++ String.ofList (ds.take (ds.length - places) ++ point ++ ds.drop (ds.length - places))

/-! ### Reading -/

/-- The double nearest to a decimal. -/
def ofDecimal (negative : Bool) (d : Decimal) : Double :=
  let (num, den) := d.scaledBy 0
  nearest negative (num * one) den

/-- Powers of ten up to the largest exponent are doubles of their own; scaling by one rounds once. -/
def powerOfTen (e : Nat) : Double := ofNat (Decimal.tenTo e)

/-- Scales down by `10^308` while the exponent is below `-308` and something is left of the value. -/
def scaleDown : Nat → Double → Int → Double × Int
  | 0, f, e => (f, e)
  | n + 1, f, e => if e < -308 ∧ !f.isZero then scaleDown n (f / powerOfTen 308) (e + 308) else (f, e)

/-- The value of `digits * 10^exponent` in two steps: the digits are rounded to a double, which is then
multiplied or divided by a power of ten. A value too large for a double is refused. -/
def ofScientific? (negative : Bool) (digits : Nat) (exponent : Int) : Option Double :=
  let (f, e) := scaleDown 5 (ofNat digits) exponent
  let result :=
    if f.isZero then some f
    else if 308 < e then none
    else if 0 ≤ e then
      let g := f * powerOfTen e.toNat
      if g.isInfinite then none else some g
    else some (f / powerOfTen (-e).toNat)
  result.map fun g => if negative then -g else g

end Double

end HyperQuery
