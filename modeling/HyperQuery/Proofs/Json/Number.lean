import HyperQuery.Json.Number
import HyperQuery.Proofs.Double.Decimal
import HyperQuery.Proofs.Json.Parser

/-!
# Numbers of integers and doubles

The numbers that integers and doubles are written with have the form that readers expect, and an integer that fits 64
bits is what its number stands for. A double that is not finite has no number. What the number of a finite double stands
for is not always that double: reading rounds the digits and then the scaled value (`Double.ofScientific?`).
-/

namespace HyperQuery

/-! ### Digits -/

theorem isNumeral_toDigits (n : Nat) : IsNumeral (Nat.toDigits 10 n) :=
  ⟨Nat.toDigits_ne_nil, fun _ => Nat.isDigit_of_mem_toDigits (by decide) (by decide)⟩

/-- Only the digits of zero begin with a zero. -/
theorem eq_zero_of_head?_toDigits {n : Nat} (h : (Nat.toDigits 10 n).head? = some '0') : n = 0 := by
  induction n using Nat.strongRecOn with
  | ind n ih =>
    rw [Nat.toDigits_eq_if (by decide)] at h
    split at h
    · rename_i hn
      exact Text.digitChar_inj (by omega) (by decide) (Option.some.inj h)
    · rw [List.head?_append_of_ne_nil _ Nat.toDigits_ne_nil] at h
      have hzero := ih (n / 10) (Nat.div_lt_self (by omega) (by decide)) h
      omega

namespace Decimal

variable {d : Decimal}

/-- The digits before the point do not begin with a zero that could be left out. -/
theorem leading_wholeAndFraction (hd : d.digits ≠ 0) (h : d.wholeAndFraction.1.head? = some '0') :
    d.wholeAndFraction.1 = ['0'] := by
  have hne : d.digitChars ≠ [] := Nat.toDigits_ne_nil
  have hfirst : d.digitChars.head? ≠ some '0' := fun hzero => hd (eq_zero_of_head?_toDigits hzero)
  unfold wholeAndFraction at h ⊢
  dsimp only at h ⊢
  split
  · rename_i he
    simp only [he, if_true, List.head?_append_of_ne_nil _ hne] at h
    exact absurd h hfirst
  · rename_i he
    split
    · rename_i hplaces
      have hcount : d.digitChars.length - (-d.exponent).toNat ≠ 0 := by omega
      simp only [he, if_false, hplaces, if_true, List.head?_take, hcount] at h
      exact absurd h hfirst
    · rfl

theorem isDigit_of_mem_wholeAndFraction {c : Char} (h : c ∈ d.wholeAndFraction.1 ++ d.wholeAndFraction.2) :
    c.isDigit = true := by
  obtain ⟨n, hn, rfl⟩ := digit_of_mem_wholeAndFraction h
  exact (isNumeral_toDigits n).2 _ (by simp [Nat.toDigits_of_lt_base hn])

end Decimal

namespace JsonNumber

variable {x : Double} {n : JsonNumber}

/-! ### How numbers are written -/

theorem wellWritten_ofInt (n : Int) : (ofInt n).WellWritten where
  whole := isNumeral_toDigits _
  leading h := by
    rw [ofInt, eq_zero_of_head?_toDigits h]
    rfl
  fraction _ hc := absurd hc List.not_mem_nil
  exponent _ he := by cases he

/-- A double has a number unless it is not finite. -/
theorem ofDouble?_eq_none_iff : ofDouble? x = none ↔ x.isNaN = true ∨ x.isInfinite = true := by
  rw [← Bool.or_eq_true]
  unfold ofDouble?
  split
  · rename_i h
    exact iff_of_true rfl h
  · rename_i h
    refine iff_of_false ?_ h
    split
    · exact Option.some_ne_none _
    · dsimp only
      split <;> exact Option.some_ne_none _

/-- A first digit, and the others behind the point. -/
theorem wellWritten_scientific (d : Decimal) {negative : Bool} {e : Bool × List Char} (he : IsNumeral e.2) :
    WellWritten ⟨negative, d.digitChars.take 1, d.digitChars.drop 1, some e⟩ := by
  have hdigits : IsNumeral d.digitChars := isNumeral_toDigits _
  obtain ⟨c, cs, hcs⟩ := List.exists_cons_of_ne_nil hdigits.1
  rw [hcs] at hdigits ⊢
  exact
    { whole := ⟨by simp, fun b hb => hdigits.2 b (List.mem_of_mem_take hb)⟩
      leading := fun h => by simpa using h
      fraction := fun b hb => hdigits.2 b (List.mem_of_mem_drop hb)
      exponent := fun _ h => Option.some.inj h ▸ he }

theorem wellWritten_positional {d : Decimal} (hd : d.digits ≠ 0) {negative : Bool} :
    WellWritten ⟨negative, d.wholeAndFraction.1,
      if d.wholeAndFraction.2.isEmpty then ['0'] else d.wholeAndFraction.2, none⟩ where
  whole := ⟨d.whole_ne_nil, fun _ hc => Decimal.isDigit_of_mem_wholeAndFraction (List.mem_append_left _ hc)⟩
  leading h := Decimal.leading_wholeAndFraction hd h
  fraction c hc := by
    dsimp only at hc
    split at hc
    · rw [List.mem_singleton.mp hc]
      decide
    · exact Decimal.isDigit_of_mem_wholeAndFraction (List.mem_append_right _ hc)
  exponent _ h := by cases h

theorem shortest_digits_ne_zero (hfinite : x.magnitude < Double.infiniteMagnitude) (hzero : x.isZero = false) :
    (x.shortest .even).digits ≠ 0 := by
  intro h0
  have hpos := Double.quarters_pos hzero (Double.shortest_mem .even hzero hfinite)
  simp [Double.quarters, Decimal.value, h0] at hpos

theorem wellWritten_ofDouble? (h : ofDouble? x = some n) : n.WellWritten := by
  have hfinite : ¬(x.isNaN = true ∨ x.isInfinite = true) := fun hx => by simp [ofDouble?_eq_none_iff.mpr hx] at h
  obtain ⟨hnan, hinf⟩ : x.isNaN = false ∧ x.isInfinite = false := by simpa using hfinite
  unfold ofDouble? at h
  rw [if_neg (by simp [hnan, hinf])] at h
  split at h
  · rw [← Option.some.inj h]
    exact ⟨⟨by simp, by simp⟩, fun _ => rfl, by simp, fun _ h => by cases h⟩
  · rename_i hzero
    have hne := shortest_digits_ne_zero (Double.magnitude_lt_of_finite hnan hinf) (Bool.eq_false_of_not_eq_true hzero)
    dsimp only at h
    split at h
    · rw [← Option.some.inj h]
      exact wellWritten_scientific _ (isNumeral_toDigits _)
    · rw [← Option.some.inj h]
      exact wellWritten_positional hne

/-! ### What numbers stand for -/

theorem le_ofDigitChars (n : Nat) (cs : List Char) : n ≤ Nat.ofDigitChars 10 cs n := by
  induction cs generalizing n with
  | nil => exact Nat.le_refl _
  | cons c cs ih =>
    rw [Nat.ofDigitChars_cons]
    exact Nat.le_trans (by omega) (ih _)

/-- Digits that fit 64 bits all count. -/
theorem appendDigits_eq {n : Nat} {cs : List Char} (h : Nat.ofDigitChars 10 cs n < UInt64.size) :
    appendDigits n cs = (Nat.ofDigitChars 10 cs n, []) := by
  induction cs generalizing n with
  | nil => rfl
  | cons c cs ih =>
    rw [Nat.ofDigitChars_cons] at h ⊢
    rw [appendDigits, digitValue, if_pos (Nat.lt_of_le_of_lt (le_ofDigitChars _ cs) h)]
    exact ih h

/-- The number of an integer stands for it, if it fits 64 bits. -/
theorem int?_ofInt {n : Int} (hlow : Int64.minValue.toInt ≤ n) (hhigh : n < UInt64.size) : (ofInt n).int? = some n := by
  have hmin : Int64.minValue.toInt = -2 ^ 63 := by decide
  have hmax : UInt64.size = 2 ^ 64 := rfl
  have happend : appendDigits 0 (Nat.toDigits 10 n.natAbs) = (n.natAbs, []) := by
    rw [appendDigits_eq, Nat.ofDigitChars_ten_toDigits]
    rw [Nat.ofDigitChars_ten_toDigits]
    omega
  unfold int? meaning ofInt
  rw [happend]
  by_cases hn : n < 0
  · have hcond : 0 < n.natAbs ∧ Int64.minValue.toInt ≤ n := by omega
    have habs : -(n.natAbs : Int) = n := by omega
    simp only [hn, decide_true, List.isEmpty_nil, Option.isNone_none, Bool.and_self, if_true, Bool.not_true,
      Bool.false_eq_true, if_false, habs]
    rw [if_pos hcond]
  · have habs : (n.natAbs : Int) = n := by omega
    simp [hn, habs]

end JsonNumber

end HyperQuery
