/-!
# Binary64 numbers by their bits

A `Double` is the 64 bits of an IEEE 754 binary64 number. Every finite one is a whole number of *units*, a unit
being `2^-1074`: `units` gives the absolute value and `scaled` the signed value in units, so that comparison and
arithmetic are statements about `Nat` and `Int`.

* `totalKey` orders all bit patterns, NaNs and signed zeros included (`totalCompare`);
* `partialCompare` compares values: zeros are equal and a NaN is comparable with nothing;
* every inexact result goes through `nearest`, which rounds a quotient of units to the nearest double, half to
  even.
-/

namespace HyperQuery

/-- A 64-bit floating-point number, given by its bits. -/
structure Double where
  bits : UInt64
  deriving DecidableEq

namespace Double

/-- The weight of the sign bit. -/
def signWeight : Nat := 0x8000000000000000

/-- The weight of the lowest bit of the exponent field. -/
def exponentWeight : Nat := 0x10000000000000

/-- Whether the sign bit is set. -/
def negative (x : Double) : Bool := decide (signWeight ≤ x.bits.toNat)

/-- The exponent and fraction fields together, read as one number. -/
def magnitude (x : Double) : Nat := x.bits.toNat % signWeight

/-- The exponent field. -/
def exponent (x : Double) : Nat := x.magnitude / exponentWeight

/-- The fraction field. -/
def fraction (x : Double) : Nat := x.magnitude % exponentWeight

/-- The magnitude of the infinities; everything above it is a NaN. -/
def infiniteMagnitude : Nat := 2047 * exponentWeight

def isNaN (x : Double) : Bool := decide (infiniteMagnitude < x.magnitude)

def isInfinite (x : Double) : Bool := decide (x.magnitude = infiniteMagnitude)

def isZero (x : Double) : Bool := decide (x.magnitude = 0)

/-- The double with the given sign and magnitude. -/
def ofMagnitude (negative : Bool) (magnitude : Nat) : Double :=
  ⟨UInt64.ofNat ((if negative then signWeight else 0) + magnitude)⟩

def zero : Double := ofMagnitude false 0
def negativeZero : Double := ofMagnitude true 0
def infinity : Double := ofMagnitude false infiniteMagnitude
def negativeInfinity : Double := ofMagnitude true infiniteMagnitude

/-- The NaN that arithmetic produces. -/
def nan : Double := ofMagnitude false (infiniteMagnitude + exponentWeight / 2)

/-- The largest finite double. -/
def largest : Double := ofMagnitude false (infiniteMagnitude - 1)

/-! ### Values in units -/

/-- How many units `2^-1074` make the value one. -/
def one : Nat := 1 <<< 1074

/-- The absolute value in units. An infinity gets the value that would follow the largest finite one. -/
def units (x : Double) : Nat :=
  if x.exponent = 0 then x.fraction else (exponentWeight + x.fraction) <<< (x.exponent - 1)

/-- The signed value in units. -/
def scaled (x : Double) : Int := if x.negative then -(x.units : Int) else x.units

/-! ### Rounding -/

/-- The quotient `num / den` rounded to a whole number, half to even. -/
def roundHalfEven (num den : Nat) : Nat :=
  let q := num / den
  let r := num % den
  if 2 * r < den then q else if den < 2 * r then q + 1 else if q % 2 = 0 then q else q + 1

/-- The magnitude of the double nearest to `num / den` units. With `e` the spacing exponent at that size, the
rounded significand `m` and `e` make up the fields as `e * exponentWeight + m`, also where `m` carries into the
next binade. -/
def nearestMagnitude (num den : Nat) : Nat :=
  let q := num / den
  let e := if q < 2 * exponentWeight then 0 else q.log2 - 52
  min (e * exponentWeight + roundHalfEven num (den <<< e)) infiniteMagnitude

/-- The double nearest to `num / den` units, with the given sign. -/
def nearest (negative : Bool) (num den : Nat) : Double :=
  ofMagnitude negative (nearestMagnitude num den)

/-- The double nearest to `num / den`. -/
def ratio (num den : Nat) : Double := nearest false (num * one) den

/-- The double nearest to an integer. -/
def ofInt (n : Int) : Double := nearest (decide (n < 0)) (n.natAbs * one) 1

/-- The double nearest to a natural number. -/
def ofNat (n : Nat) : Double := nearest false (n * one) 1

/-- The largest integer that is not above the value. -/
def floor (x : Double) : Int := x.scaled / (one : Int)

/-- The smallest integer that is not below the value. -/
def ceil (x : Double) : Int := -(-x.scaled / (one : Int))

/-! ### Order -/

/-- The key of the total order: negative patterns below positive ones, further from zero further out. -/
def totalKey (x : Double) : Int := if x.negative then -1 - (x.magnitude : Int) else x.magnitude

/-- The total order of all bit patterns. -/
def totalCompare (x y : Double) : Ordering := compare x.totalKey y.totalKey

/-- Comparison by value; `none` if either side is a NaN. -/
def partialCompare (x y : Double) : Option Ordering :=
  if x.isNaN || y.isNaN then none else some (compare x.scaled y.scaled)

/-- Whether the value is at least zero; false for a NaN. -/
def isNonnegative (x : Double) : Bool := !x.isNaN && decide (0 ≤ x.scaled)

/-- The value with everything that is not above zero, a NaN included, replaced by zero. -/
def clampNonnegative (x : Double) : Double :=
  if !x.isNaN && decide (0 < x.scaled) then x else zero

/-! ### Arithmetic -/

def neg (x : Double) : Double := ofMagnitude (!x.negative) x.magnitude

/-- The sum, rounded once. -/
def add (x y : Double) : Double :=
  if x.isNaN || y.isNaN then nan
  else if x.isInfinite then (if y.isInfinite && x.negative != y.negative then nan else x)
  else if y.isInfinite then y
  else
    let s := x.scaled + y.scaled
    if s = 0 then ofMagnitude (x.negative && y.negative) 0 else nearest (decide (s < 0)) s.natAbs 1

/-- The product, rounded once. -/
def mul (x y : Double) : Double :=
  let negative := x.negative != y.negative
  if x.isNaN || y.isNaN then nan
  else if x.isInfinite || y.isInfinite then
    if x.isZero || y.isZero then nan else ofMagnitude negative infiniteMagnitude
  else nearest negative (x.units * y.units) one

/-- The quotient, rounded once. -/
def div (x y : Double) : Double :=
  let negative := x.negative != y.negative
  if x.isNaN || y.isNaN then nan
  else if x.isInfinite then (if y.isInfinite then nan else ofMagnitude negative infiniteMagnitude)
  else if y.isInfinite then ofMagnitude negative 0
  else if y.isZero then (if x.isZero then nan else ofMagnitude negative infiniteMagnitude)
  else nearest negative (x.units * one) y.units

instance : Add Double := ⟨add⟩
instance : Mul Double := ⟨mul⟩
instance : Div Double := ⟨div⟩
instance : Neg Double := ⟨neg⟩

end Double

end HyperQuery
