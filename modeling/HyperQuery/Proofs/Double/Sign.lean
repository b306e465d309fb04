import HyperQuery.Proofs.Double.Order

/-!
# Arithmetic with doubles that are not negative

A double that is at least zero is neither a NaN nor negative, unless it is the negative zero (`isNonnegative_iff`). The
sum of two such doubles is one, infinite or not (`isNonnegative_add`), and so is the quotient of one by a number of at most
64 bits other than zero (`isNonnegative_div_ofNat`): no infinity is subtracted from another or divided by one.
-/

namespace HyperQuery

namespace Double

variable {x y : Double} {negative : Bool} {m num den n : Nat}

theorem isNonnegative_iff : x.isNonnegative = true ↔ x.isNaN = false ∧ (x.negative = false ∨ x.isZero = true) := by
  have hzero := units_eq_zero_iff (x := x)
  unfold isNonnegative scaled isZero
  cases x.negative with
  | false => simp
  | true =>
    simp only [Bool.and_eq_true, Bool.not_eq_true', decide_eq_true_eq, if_true, Bool.true_eq_false, false_or]
    refine and_congr_right fun _ => ?_
    omega

theorem isNonnegative_ofMagnitude (hm : m ≤ infiniteMagnitude) (hsign : negative = false ∨ m = 0) :
    (ofMagnitude negative m).isNonnegative = true := by
  have hlt : m < signWeight := Nat.lt_of_le_of_lt hm (by decide)
  rw [isNonnegative_iff, isNaN, isZero, negative_ofMagnitude hlt, magnitude_ofMagnitude hlt]
  simpa using ⟨hm, hsign⟩

theorem isNonnegative_nearest : (nearest false num den).isNonnegative = true :=
  isNonnegative_ofMagnitude (nearestMagnitude_le num den) (.inl rfl)

/-- An infinity that is not negative has no sign. -/
private theorem negative_of_isInfinite (hx : x.isNonnegative = true) (hinf : x.isInfinite = true) :
    x.negative = false := by
  refine (isNonnegative_iff.mp hx).2.resolve_right fun hzero => ?_
  rw [isZero, decide_eq_true_eq] at hzero
  rw [isInfinite, decide_eq_true_eq, hzero] at hinf
  exact absurd hinf (by decide)

private theorem scaled_nonneg (hx : x.isNonnegative = true) : 0 ≤ x.scaled := by
  rw [isNonnegative, Bool.and_eq_true, decide_eq_true_eq] at hx
  exact hx.2

theorem isNonnegative_add (hx : x.isNonnegative = true) (hy : y.isNonnegative = true) :
    (x + y).isNonnegative = true := by
  have hx0 := scaled_nonneg hx
  have hy0 := scaled_nonneg hy
  show (add x y).isNonnegative = true
  unfold add
  rw [(isNonnegative_iff.mp hx).1, (isNonnegative_iff.mp hy).1, if_neg (by simp)]
  split
  · rename_i hxinf
    split
    · -- two infinities have the same sign
      rename_i hboth
      rw [Bool.and_eq_true] at hboth
      rw [negative_of_isInfinite hx hxinf, negative_of_isInfinite hy hboth.1] at hboth
      simp at hboth
    · exact hx
  · split
    · exact hy
    · dsimp only
      split
      · exact isNonnegative_ofMagnitude (Nat.zero_le _) (.inr rfl)
      · rw [decide_eq_false (by omega)]
        exact isNonnegative_nearest

/-- Dividing by something finite and positive. -/
private theorem isNonnegative_div (hx : x.isNonnegative = true) (hynan : y.isNaN = false) (hyneg : y.negative = false)
    (hyinf : y.isInfinite = false) (hyzero : y.isZero = false) : (x / y).isNonnegative = true := by
  show (div x y).isNonnegative = true
  unfold div
  rw [(isNonnegative_iff.mp hx).1, hynan, hyinf, hyzero, hyneg]
  simp only [Bool.or_self, Bool.false_eq_true, if_false, Bool.bne_false]
  split
  · rename_i hxinf
    exact isNonnegative_ofMagnitude (Nat.le_refl _) (.inl (negative_of_isInfinite hx hxinf))
  · rcases (isNonnegative_iff.mp hx).2 with hneg | hzero
    · rw [hneg]
      exact isNonnegative_nearest
    · have hunits : x.units = 0 := units_eq_zero_iff.mpr (by simpa [isZero] using hzero)
      have hnearest : nearestMagnitude (0 * one) y.units = 0 := by
        simp [nearestMagnitude, roundHalfEven, exponentWeight]
      rw [hunits]
      exact isNonnegative_ofMagnitude (nearestMagnitude_le _ _) (.inr hnearest)

theorem ofNat_eq_ofInt : ofNat n = ofInt n := by
  have hnonneg : ¬ (n : Int) < 0 := by omega
  rw [ofNat, ofInt, decide_eq_false hnonneg, Int.natAbs_natCast]

theorem isNonnegative_div_ofNat (hx : x.isNonnegative = true) (hpos : 0 < n) (hn : n < 2 ^ 64) :
    (x / ofNat n).isNonnegative = true := by
  have hn' : (n : Int).natAbs < 2 ^ 64 := by rwa [Int.natAbs_natCast]
  have hinf : (ofNat n).isInfinite = false := ofNat_eq_ofInt ▸ isInfinite_ofInt hn'
  have hzero : (ofNat n).isZero = false := by
    rw [ofNat_eq_ofInt]
    refine Bool.eq_false_iff.mpr fun h => ?_
    have h0 := eq_zero_of_isZero_ofInt hn' h
    omega
  exact isNonnegative_div hx isNaN_nearest negative_nearest hinf hzero

end Double

end HyperQuery
