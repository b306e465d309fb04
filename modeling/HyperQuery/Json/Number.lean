import HyperQuery.Double.Decimal
import HyperQuery.Json.Basic

/-!
# Numbers in JSON

How doubles are written, and what a written number stands for. A number without point and exponent stands for an
integer if it fits 64 bits; everything else stands for a double. Only as many leading digits as fit 64 bits count.
-/

namespace HyperQuery.JsonNumber

/-- The written form of a finite double: the shortest digits, a tie going to the even one, with an exponent below `10^-5`
and from `10^16` on, and without one at least one place after the point. -/
def ofDouble? (x : Double) : Option JsonNumber :=
  if x.isNaN || x.isInfinite then none
  else if x.isZero then some ⟨x.negative, ['0'], ['0'], none⟩
  else
    let d := x.shortest .even
    let e := d.leadingExponent
    if e < -5 ∨ 16 ≤ e then
      some ⟨x.negative, d.digitChars.take 1, d.digitChars.drop 1, some (decide (e < 0), Nat.toDigits 10 e.natAbs)⟩
    else
      let (whole, fraction) := d.wholeAndFraction
      some ⟨x.negative, whole, if fraction.isEmpty then ['0'] else fraction, none⟩

/-- The number that a digit stands for. -/
def digitValue (c : Char) : Nat := c.toNat - '0'.toNat

/-- The number that a list of digits stands for. -/
def digitsValue (digits : List Char) : Nat := digits.foldl (fun n c => 10 * n + digitValue c) 0

/-- Appends digits to a number as long as it fits 64 bits, and returns the digits left over. -/
def appendDigits : Nat → List Char → Nat × List Char
  | n, [] => (n, [])
  | n, c :: rest =>
    let m := 10 * n + digitValue c
    if m < UInt64.size then appendDigits m rest else (n, c :: rest)

/-- What a number stands for. -/
inductive Meaning
  | int (n : Int)
  | float (x : Double)
  | outOfRange

/-- A double, or out of range. -/
def Meaning.ofDouble? : Option Double → Meaning
  | some x => .float x
  | none => .outOfRange

/-- The written exponent. -/
def exponentValue (n : JsonNumber) : Int :=
  match n.exponent with
  | none => 0
  | some (negative, digits) => if negative then -(digitsValue digits : Int) else digitsValue digits

/-- What the number stands for. An integer below `-2^63` and the negative zero are doubles. -/
def meaning (n : JsonNumber) : Meaning :=
  let (significand, dropped) := appendDigits 0 n.whole
  if n.fraction.isEmpty && n.exponent.isNone && dropped.isEmpty then
    if !n.negative then .int significand
    else if 0 < significand ∧ Int64.minValue.toInt ≤ -(significand : Int) then .int (-(significand : Int))
    else .float (-Double.ofNat significand)
  else
    let (digits, unused) := appendDigits significand n.fraction
    let exponent := (dropped.length : Int) - ((n.fraction.length - unused.length : Nat) : Int) + n.exponentValue
    .ofDouble? (Double.ofScientific? n.negative digits exponent)

/-- The integer the number stands for. -/
def int? (n : JsonNumber) : Option Int :=
  match n.meaning with
  | .int n => some n
  | _ => none

/-- The double the number stands for; integers are rounded. -/
def double? (n : JsonNumber) : Option Double :=
  match n.meaning with
  | .int n => some (Double.ofInt n)
  | .float x => some x
  | .outOfRange => none

end HyperQuery.JsonNumber
