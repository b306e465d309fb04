import Mathlib.Algebra.Group.Int.Defs
import Mathlib.Algebra.Group.Nat.Defs
import HyperQuery.Double.Basic

/-!
# Doubles as numbers of units

The value in units grows strictly with the magnitude (`units_lt_units_iff`). So comparison by value and the total
order agree up to signed zeros: a smaller value comes first in the total order (`totalKey_lt_of_scaled_lt`), and
doubles of one value are the same or both zero (`eq_or_isZero_of_scaled_eq`). Integers below `2^53` are converted
exactly (`scaled_ofInt`), and greater ones to doubles at least as far from zero as `2^53` (`units_ofInt_ge`). No integer is
converted to a double on the other side of some third double (`scaled_ofInt_le`, `le_scaled_ofInt`).
-/

namespace HyperQuery

namespace Double

variable {x y : Double}

/-! ### Magnitudes -/

/-- The value in units that belongs to a magnitude. -/
def unitsOf (m : Nat) : Nat :=
  if m / exponentWeight = 0 then m % exponentWeight
  else (exponentWeight + m % exponentWeight) <<< (m / exponentWeight - 1)

theorem units_eq_unitsOf : x.units = unitsOf x.magnitude := rfl

private theorem unitsOf_of_lt {m : Nat} (h : m < exponentWeight) : unitsOf m = m := by
  unfold unitsOf
  rw [if_pos (Nat.div_eq_of_lt h), Nat.mod_eq_of_lt h]

/-- The exponent field counts the doublings of a significand; a significand that is too long by one bit is read in the
next binade. -/
theorem unitsOf_significand {e m : Nat} (hlo : exponentWeight ≤ m) (hhi : m ≤ 2 * exponentWeight) :
    unitsOf (e * exponentWeight + m) = m * 2 ^ e := by
  have hpos : 0 < exponentWeight := by decide
  have hnormal : ∀ e f, f < exponentWeight →
      unitsOf ((e + 1) * exponentWeight + f) = (exponentWeight + f) * 2 ^ e := by
    intro e f hf
    have hdiv : ((e + 1) * exponentWeight + f) / exponentWeight = e + 1 := by
      rw [Nat.mul_comm, Nat.mul_add_div hpos, Nat.div_eq_of_lt hf, Nat.add_zero]
    have hmod : ((e + 1) * exponentWeight + f) % exponentWeight = f := by
      rw [Nat.mul_comm, Nat.mul_add_mod, Nat.mod_eq_of_lt hf]
    unfold unitsOf
    rw [hdiv, hmod, if_neg (by omega), Nat.shiftLeft_eq, Nat.add_sub_cancel]
  rcases Nat.lt_or_ge m (2 * exponentWeight) with h | h
  · have hm : e * exponentWeight + m = (e + 1) * exponentWeight + (m - exponentWeight) := by
      rw [Nat.add_mul]
      omega
    rw [hm, hnormal e _ (by omega), show exponentWeight + (m - exponentWeight) = m by omega]
  · have hm : m = 2 * exponentWeight := by omega
    have hnext : e * exponentWeight + m = (e + 1 + 1) * exponentWeight + 0 := by
      rw [hm, Nat.add_mul, Nat.add_mul]
      omega
    rw [hnext, hnormal (e + 1) 0 hpos, hm, Nat.pow_succ, Nat.add_zero, Nat.mul_comm 2, Nat.mul_assoc,
      Nat.mul_comm 2]

private theorem unitsOf_lt_succ (m : Nat) : unitsOf m < unitsOf (m + 1) := by
  have hpos : 0 < exponentWeight := by decide
  rcases Nat.lt_or_ge m exponentWeight with h | h
  · rw [unitsOf_of_lt h]
    rcases Nat.lt_or_ge (m + 1) exponentWeight with h' | h'
    · rw [unitsOf_of_lt h']
      omega
    · have := unitsOf_significand (e := 0) (m := m + 1) h' (by omega)
      rw [Nat.zero_mul, Nat.zero_add, Nat.pow_zero, Nat.mul_one] at this
      omega
  · -- `m` is a significand between one and two binades with the doublings of its exponent
    have hdiv := Nat.div_add_mod m exponentWeight
    have hmod := Nat.mod_lt m hpos
    have he : 1 ≤ m / exponentWeight := (Nat.le_div_iff_mul_le hpos).mpr (by omega)
    obtain ⟨e, he⟩ : ∃ e, m / exponentWeight = e + 1 := ⟨m / exponentWeight - 1, by omega⟩
    rw [he, Nat.mul_comm, Nat.add_mul, Nat.one_mul] at hdiv
    have h1 := unitsOf_significand (e := e) (m := exponentWeight + m % exponentWeight) (by omega) (by omega)
    have h2 := unitsOf_significand (e := e) (m := exponentWeight + m % exponentWeight + 1) (by omega) (by omega)
    rw [show e * exponentWeight + (exponentWeight + m % exponentWeight) = m by omega] at h1
    rw [show e * exponentWeight + (exponentWeight + m % exponentWeight + 1) = m + 1 by omega] at h2
    rw [h1, h2]
    exact Nat.mul_lt_mul_of_pos_right (Nat.lt_succ_self _) (Nat.two_pow_pos e)

theorem unitsOf_lt_unitsOf {m n : Nat} (h : m < n) : unitsOf m < unitsOf n := by
  induction h with
  | refl => exact unitsOf_lt_succ m
  | step _ ih => exact Nat.lt_trans ih (unitsOf_lt_succ _)

theorem units_lt_units_iff : x.units < y.units ↔ x.magnitude < y.magnitude := by
  refine ⟨fun h => Nat.lt_of_not_le fun hle => ?_, unitsOf_lt_unitsOf⟩
  rcases Nat.eq_or_lt_of_le hle with heq | hlt
  · rw [units_eq_unitsOf, units_eq_unitsOf, heq] at h
    exact Nat.lt_irrefl _ h
  · exact Nat.lt_asymm h (unitsOf_lt_unitsOf hlt)

theorem units_eq_units_iff : x.units = y.units ↔ x.magnitude = y.magnitude := by
  have h1 := units_lt_units_iff (x := x) (y := y)
  have h2 := units_lt_units_iff (x := y) (y := x)
  omega

theorem units_eq_zero_iff : x.units = 0 ↔ x.magnitude = 0 := by
  have h0 : unitsOf 0 = 0 := rfl
  rw [units_eq_unitsOf]
  rcases Nat.eq_zero_or_pos x.magnitude with h | h
  · rw [h, h0]
  · have := unitsOf_lt_unitsOf h
    omega

/-! ### Comparison by value and the total order -/

/-- A smaller value comes first in the total order. -/
theorem totalKey_lt_of_scaled_lt (h : x.scaled < y.scaled) : x.totalKey < y.totalKey := by
  have h1 := units_lt_units_iff (x := x) (y := y)
  have h2 := units_lt_units_iff (x := y) (y := x)
  unfold scaled at h
  unfold totalKey
  split at h <;> split at h <;> simp only [*, if_true, if_false, Bool.false_eq_true] <;> omega

theorem eq_of_negative_of_magnitude (hn : x.negative = y.negative) (hm : x.magnitude = y.magnitude) : x = y := by
  have hx := x.bits.toNat_lt
  have hy := y.bits.toNat_lt
  unfold negative at hn
  unfold magnitude at hm
  have hbits : x.bits.toNat = y.bits.toNat := by
    simp only [decide_eq_decide] at hn
    unfold signWeight at hn hm
    omega
  cases x
  cases y
  exact congrArg mk (UInt64.toNat_inj.mp hbits)

/-- Doubles of one value are the same, or both zero. -/
theorem eq_or_isZero_of_scaled_eq (h : x.scaled = y.scaled) : x = y ∨ (x.isZero = true ∧ y.isZero = true) := by
  have hm := units_eq_units_iff (x := x) (y := y)
  have hx := units_eq_zero_iff (x := x)
  have hy := units_eq_zero_iff (x := y)
  unfold scaled at h
  simp only [isZero, decide_eq_true_eq]
  by_cases hn : x.negative = y.negative
  · left
    refine eq_of_negative_of_magnitude hn (hm.mp ?_)
    rw [hn] at h
    split at h <;> omega
  · right
    split at h <;> split at h
    · simp_all
    · omega
    · omega
    · simp_all

/-! ### Doubles of a given sign and magnitude -/

section OfMagnitude

variable {negative : Bool} {m : Nat}

private theorem toNat_ofMagnitude (h : m < signWeight) :
    (ofMagnitude negative m).bits.toNat = (if negative then signWeight else 0) + m := by
  unfold ofMagnitude
  rw [UInt64.toNat_ofNat']
  refine Nat.mod_eq_of_lt ?_
  unfold signWeight at h ⊢
  split <;> omega

theorem negative_ofMagnitude (h : m < signWeight) : (ofMagnitude negative m).negative = negative := by
  unfold Double.negative
  rw [toNat_ofMagnitude h]
  cases negative with
  | true => simp
  | false =>
    rw [decide_eq_false_iff_not]
    simp only [Bool.false_eq_true, if_false]
    omega

theorem magnitude_ofMagnitude (h : m < signWeight) : (ofMagnitude negative m).magnitude = m := by
  unfold magnitude
  rw [toNat_ofMagnitude h]
  cases negative with
  | true =>
    rw [if_pos rfl, Nat.add_mod_left]
    exact Nat.mod_eq_of_lt h
  | false =>
    rw [if_neg (by simp), Nat.zero_add]
    exact Nat.mod_eq_of_lt h

end OfMagnitude

/-! ### Integers as doubles -/

private theorem shiftLeft_one (k : Nat) : 1 <<< k = 2 ^ k := by rw [Nat.shiftLeft_eq, Nat.one_mul]

/-- The number of units in one is the power of two with exponent 1074, which is kept out of the reach of evaluation. -/
theorem exists_one_eq : ∃ k, k = 1074 ∧ one = 2 ^ k := ⟨1074, rfl, shiftLeft_one 1074⟩

private theorem le_roundHalfEven {num den c : Nat} (hden : 0 < den) (h : c * den ≤ num) :
    c ≤ roundHalfEven num den := by
  have hc : c ≤ num / den := (Nat.le_div_iff_mul_le hden).mpr h
  unfold roundHalfEven
  dsimp only
  split
  · exact hc
  · split
    · omega
    · split <;> omega

private theorem roundHalfEven_le_of_le {num den c : Nat} (hden : 0 < den) (h : num ≤ c * den) :
    roundHalfEven num den ≤ c := by
  have hdiv := Nat.div_add_mod num den
  have hc : num / den ≤ c := Nat.div_le_of_le_mul (by rwa [Nat.mul_comm])
  have hexact : num / den = c → num % den = 0 := fun heq => by
    rw [heq, Nat.mul_comm] at hdiv
    omega
  unfold roundHalfEven
  dsimp only
  split
  · exact hc
  · split
    · omega
    · split <;> omega

private theorem roundHalfEven_le (num den : Nat) : roundHalfEven num den ≤ num / den + 1 := by
  unfold roundHalfEven
  dsimp only
  split
  · omega
  · split
    · omega
    · split <;> omega

private theorem roundHalfEven_mul {den c : Nat} (hden : 0 < den) : roundHalfEven (c * den) den = c := by
  unfold roundHalfEven
  simp [Nat.mul_mod_left, hden]

theorem nearestMagnitude_le (num den : Nat) : nearestMagnitude num den ≤ infiniteMagnitude :=
  Nat.min_le_right _ _

private theorem infiniteMagnitude_lt_signWeight : infiniteMagnitude < signWeight := by decide

theorem magnitude_nearest {negative : Bool} {num den : Nat} :
    (nearest negative num den).magnitude = nearestMagnitude num den :=
  magnitude_ofMagnitude (Nat.lt_of_le_of_lt (nearestMagnitude_le _ _) infiniteMagnitude_lt_signWeight)

theorem negative_nearest {negative : Bool} {num den : Nat} : (nearest negative num den).negative = negative :=
  negative_ofMagnitude (Nat.lt_of_le_of_lt (nearestMagnitude_le _ _) infiniteMagnitude_lt_signWeight)

/-- No rounded quotient is a NaN. -/
theorem isNaN_nearest {negative : Bool} {num den : Nat} : (nearest negative num den).isNaN = false := by
  unfold isNaN
  rw [magnitude_nearest, decide_eq_false_iff_not]
  exact Nat.not_lt.mpr (nearestMagnitude_le _ _)

theorem isNaN_ofInt (n : Int) : (ofInt n).isNaN = false := isNaN_nearest

/-- A number of units with `k + 53` bits is rounded to a significand of 53 or, by rounding up, 54 bits, doubled `k`
times. -/
private theorem nearestMagnitude_eq {q k : Nat} (hlo : exponentWeight * 2 ^ k ≤ q)
    (hhi : q < 2 * exponentWeight * 2 ^ k) (hk : 0 < k) (hfinite : k < 2000) :
    nearestMagnitude q 1 = k * exponentWeight + roundHalfEven q (2 ^ k) ∧
      exponentWeight ≤ roundHalfEven q (2 ^ k) ∧ roundHalfEven q (2 ^ k) ≤ 2 * exponentWeight := by
  have hpow := Nat.two_pow_pos k
  have hround' : roundHalfEven q (2 ^ k) ≤ 2 * exponentWeight := by
    have h1 := roundHalfEven_le q (2 ^ k)
    have h2 : q / 2 ^ k < 2 * exponentWeight := (Nat.div_lt_iff_lt_mul hpow).mpr hhi
    omega
  refine ⟨?_, le_roundHalfEven hpow hlo, hround'⟩
  have hq : ¬ q < 2 * exponentWeight := by
    rw [Nat.not_lt, Nat.mul_comm]
    exact Nat.le_trans (Nat.mul_le_mul_left _ (Nat.le_self_pow (by omega) 2)) hlo
  -- the number of bits of `q` tells how often the significand is doubled
  have hlog : q.log2 = 52 + k := by
    have hpos : 0 < q := Nat.lt_of_lt_of_le (Nat.mul_pos (by decide) hpow) hlo
    refine (Nat.log2_eq_iff (Nat.ne_of_gt hpos)).mpr ⟨?_, ?_⟩
    · rw [Nat.pow_add]
      exact hlo
    · rw [show 52 + k + 1 = 53 + k by omega, Nat.pow_add]
      exact hhi
  unfold nearestMagnitude
  simp only [Nat.div_one, if_neg hq, hlog, Nat.add_sub_cancel_left, Nat.shiftLeft_eq, Nat.one_mul]
  refine Nat.min_eq_left ?_
  have : k * exponentWeight ≤ 2000 * exponentWeight := Nat.mul_le_mul_right _ (by omega)
  unfold infiniteMagnitude
  omega

/-- The value of the double nearest to a number of units with `k + 53` bits. -/
private theorem unitsOf_nearestMagnitude {q k : Nat} (hlo : exponentWeight * 2 ^ k ≤ q)
    (hhi : q < 2 * exponentWeight * 2 ^ k) (hk : 0 < k) (hfinite : k < 2000) :
    unitsOf (nearestMagnitude q 1) = roundHalfEven q (2 ^ k) * 2 ^ k ∧ exponentWeight ≤ roundHalfEven q (2 ^ k) := by
  obtain ⟨hmag, hround, hround'⟩ := nearestMagnitude_eq hlo hhi hk hfinite
  rw [hmag]
  exact ⟨unitsOf_significand hround hround', hround⟩

/-- How many doublings bring a positive integer of at most 64 bits, in units, down to a significand. -/
private theorem exists_binade {n : Nat} (hpos : 0 < n) (hn : n < 2 ^ 64) :
    exponentWeight * 2 ^ (n.log2 + 1022) ≤ n * one ∧ n * one < 2 * exponentWeight * 2 ^ (n.log2 + 1022) ∧
      n.log2 < 64 := by
  have hlo := Nat.log2_self_le (n := n) (by omega)
  have hhi := Nat.lt_log2_self (n := n)
  obtain ⟨k, hk, hk1⟩ := exists_one_eq
  have hone : exponentWeight * 2 ^ (n.log2 + 1022) = 2 ^ n.log2 * one := by
    rw [hk1, show exponentWeight = 2 ^ 52 from rfl, ← Nat.pow_add, ← Nat.pow_add,
      show 52 + (n.log2 + 1022) = n.log2 + k by omega]
  refine ⟨?_, ?_, (Nat.log2_lt (by omega)).mpr hn⟩
  · rw [hone]
    exact Nat.mul_le_mul_right _ hlo
  · rw [Nat.mul_assoc, hone, ← Nat.mul_assoc, Nat.mul_comm 2, ← Nat.pow_succ]
    exact Nat.mul_lt_mul_of_pos_right hhi (by rw [hk1]; exact Nat.two_pow_pos _)

private theorem units_ofInt (n : Int) : (ofInt n).units = unitsOf (nearestMagnitude (n.natAbs * one) 1) := by
  rw [units_eq_unitsOf, ofInt, magnitude_nearest]

/-- Integers below `2^53` are converted exactly. -/
theorem units_ofInt_of_lt {n : Int} (h : n.natAbs < 2 ^ 53) : (ofInt n).units = n.natAbs * one := by
  rw [units_ofInt]
  rcases Nat.eq_zero_or_pos n.natAbs with h0 | hpos
  · rw [h0, Nat.zero_mul]
    rfl
  · obtain ⟨hlo, hhi, hlog⟩ := exists_binade hpos (by omega)
    rw [(unitsOf_nearestMagnitude hlo hhi (by omega) (by omega)).1]
    have hlog53 : n.natAbs.log2 < 53 := (Nat.log2_lt (by omega)).mpr h
    obtain ⟨k, hk, hone⟩ := exists_one_eq
    have hexact : n.natAbs * one = n.natAbs * 2 ^ (52 - n.natAbs.log2) * 2 ^ (n.natAbs.log2 + 1022) := by
      rw [hone, Nat.mul_assoc, ← Nat.pow_add, show 52 - n.natAbs.log2 + (n.natAbs.log2 + 1022) = k by omega]
    rw [hexact, roundHalfEven_mul (Nat.two_pow_pos _)]

/-- From `2^53` on, an integer is converted to a double that is at least as far from zero as `2^53`. -/
theorem units_ofInt_ge {n : Int} (h : 2 ^ 53 ≤ n.natAbs) (hn : n.natAbs < 2 ^ 64) :
    2 ^ 53 * one ≤ (ofInt n).units := by
  rw [units_ofInt]
  obtain ⟨hlo, hhi, hlog⟩ := exists_binade (n := n.natAbs) (by omega) hn
  obtain ⟨hunits, hround⟩ := unitsOf_nearestMagnitude hlo hhi (by omega) (by omega)
  rw [hunits]
  have hlog53 : 53 ≤ n.natAbs.log2 := (Nat.le_log2 (by omega)).mpr h
  obtain ⟨k, hk, hone⟩ := exists_one_eq
  calc 2 ^ 53 * one = exponentWeight * 2 ^ (k + 1) := by
        rw [hone, show exponentWeight = 2 ^ 52 from rfl, ← Nat.pow_add, ← Nat.pow_add,
          show 53 + k = 52 + (k + 1) by omega]
    _ ≤ exponentWeight * 2 ^ (n.natAbs.log2 + 1022) :=
        Nat.mul_le_mul_left _ (Nat.pow_le_pow_right (by omega) (by omega))
    _ ≤ _ := Nat.mul_le_mul_right _ hround

/-- From the lower end of a binade on, the values of doubles are multiples of its spacing. -/
private theorem exists_unitsOf_eq_mul {m k : Nat} (h : exponentWeight * 2 ^ k ≤ unitsOf m) :
    ∃ c, unitsOf m = c * 2 ^ k := by
  have hpos : 0 < exponentWeight := by decide
  have hpow := Nat.two_pow_pos k
  have hmod := Nat.mod_lt m hpos
  unfold unitsOf at h ⊢
  split
  · -- a subnormal double is below every binade
    rename_i hzero
    rw [if_pos hzero] at h
    have := Nat.le_mul_of_pos_right exponentWeight hpow
    omega
  · rename_i hnormal
    rw [if_neg hnormal, Nat.shiftLeft_eq] at h
    rw [Nat.shiftLeft_eq]
    generalize m / exponentWeight - 1 = e at h ⊢
    have hlt : exponentWeight * 2 ^ k < exponentWeight * 2 ^ (e + 1) := by
      calc exponentWeight * 2 ^ k ≤ (exponentWeight + m % exponentWeight) * 2 ^ e := h
        _ < (exponentWeight + exponentWeight) * 2 ^ e := Nat.mul_lt_mul_of_pos_right (by omega) (Nat.two_pow_pos e)
        _ = exponentWeight * 2 ^ (e + 1) := by rw [Nat.pow_succ, ← Nat.two_mul, Nat.mul_comm 2, Nat.mul_assoc, Nat.mul_comm 2]
    have hke : k ≤ e := Nat.le_of_lt_succ ((Nat.pow_lt_pow_iff_right (by decide)).mp (Nat.lt_of_mul_lt_mul_left hlt))
    refine ⟨(exponentWeight + m % exponentWeight) * 2 ^ (e - k), ?_⟩
    rw [Nat.mul_assoc, ← Nat.pow_add, Nat.sub_add_cancel hke]

/-- Conversion does not lead below a double that is not further from zero than the integer. -/
theorem le_units_ofInt {n : Int} (hn : n.natAbs < 2 ^ 64) (h : x.units ≤ n.natAbs * one) : x.units ≤ (ofInt n).units := by
  rcases Nat.eq_zero_or_pos n.natAbs with h0 | hpos
  · rw [h0, Nat.zero_mul] at h
    omega
  · obtain ⟨hlo, hhi, hlog⟩ := exists_binade hpos hn
    obtain ⟨hunits, hround⟩ := unitsOf_nearestMagnitude hlo hhi (by omega) (by omega)
    rw [units_ofInt, hunits]
    rcases Nat.lt_or_ge x.units (exponentWeight * 2 ^ (n.natAbs.log2 + 1022)) with hbelow | hwithin
    · exact Nat.le_trans (Nat.le_of_lt hbelow) (Nat.mul_le_mul_right _ hround)
    · obtain ⟨c, hc⟩ := exists_unitsOf_eq_mul hwithin
      rw [units_eq_unitsOf, hc] at h ⊢
      exact Nat.mul_le_mul_right _ (le_roundHalfEven (Nat.two_pow_pos _) h)

/-- Conversion does not lead beyond a double that is at least as far from zero as the integer. -/
theorem units_ofInt_le {n : Int} (hn : n.natAbs < 2 ^ 64) (h : n.natAbs * one ≤ x.units) : (ofInt n).units ≤ x.units := by
  rcases Nat.eq_zero_or_pos n.natAbs with h0 | hpos
  · rw [units_ofInt_of_lt (by omega), h0, Nat.zero_mul]
    exact Nat.zero_le _
  · obtain ⟨hlo, hhi, hlog⟩ := exists_binade hpos hn
    obtain ⟨hunits, -⟩ := unitsOf_nearestMagnitude hlo hhi (by omega) (by omega)
    obtain ⟨c, hc⟩ := exists_unitsOf_eq_mul (Nat.le_trans hlo h)
    rw [units_eq_unitsOf, hc] at h
    rw [units_ofInt, hunits, units_eq_unitsOf, hc]
    exact Nat.mul_le_mul_right _ (roundHalfEven_le_of_le (Nat.two_pow_pos _) h)

/-- Integers of at most 64 bits are converted to finite doubles. -/
theorem isInfinite_ofInt {n : Int} (hn : n.natAbs < 2 ^ 64) : (ofInt n).isInfinite = false := by
  rw [isInfinite, ofInt, magnitude_nearest, decide_eq_false_iff_not]
  rcases Nat.eq_zero_or_pos n.natAbs with h0 | hpos
  · rw [h0, Nat.zero_mul]
    decide
  · obtain ⟨hlo, hhi, hlog⟩ := exists_binade hpos hn
    obtain ⟨hmag, -, hround⟩ := nearestMagnitude_eq hlo hhi (by omega) (by omega)
    have hle : (n.natAbs.log2 + 1022) * exponentWeight ≤ 1086 * exponentWeight := Nat.mul_le_mul_right _ (by omega)
    have hweight : 0 < exponentWeight := by decide
    rw [hmag, infiniteMagnitude]
    omega

theorem eq_zero_of_isZero_ofInt {n : Int} (hn : n.natAbs < 2 ^ 64) (h : (ofInt n).isZero = true) : n = 0 := by
  obtain ⟨k, -, hone⟩ := exists_one_eq
  have hpos : 0 < one := hone ▸ Nat.two_pow_pos k
  have h0 : (ofInt n).units = 0 := units_eq_zero_iff.mpr (by simpa [isZero] using h)
  rcases Nat.lt_or_ge n.natAbs (2 ^ 53) with hlt | hge
  · rw [units_ofInt_of_lt hlt] at h0
    rcases Nat.mul_eq_zero.mp h0 with h0 | h0 <;> omega
  · have := units_ofInt_ge hge hn
    omega

theorem scaled_eq_zero_of_isZero (h : x.isZero = true) : x.scaled = 0 := by
  have h0 : x.units = 0 := units_eq_zero_iff.mpr (by simpa [isZero] using h)
  unfold scaled
  simp [h0]

theorem isNaN_eq_false_of_isZero (h : x.isZero = true) : x.isNaN = false := by
  unfold isZero at h
  unfold isNaN
  simp only [decide_eq_true_eq] at h
  simp [h]

theorem negative_ofInt (n : Int) : (ofInt n).negative = decide (n < 0) := negative_nearest

/-- The absolute value of an integer in units. -/
theorem natAbs_mul_one (n : Int) :
    ((n.natAbs * one : Nat) : Int) = if n < 0 then -(n * (one : Int)) else n * (one : Int) := by
  rw [Int.natCast_mul]
  split
  · rw [Int.ofNat_natAbs_of_nonpos (by omega), Int.neg_mul]
  · rw [Int.natAbs_of_nonneg (by omega)]

/-- Conversion does not lead beyond a double that is not below the integer. -/
theorem scaled_ofInt_le {n : Int} (hn : n.natAbs < 2 ^ 64) (h : n * one ≤ x.scaled) : (ofInt n).scaled ≤ x.scaled := by
  have habs := natAbs_mul_one n
  have hle := units_ofInt_le (x := x) hn
  have hge := le_units_ofInt (x := x) hn
  simp only [scaled, negative_ofInt, decide_eq_true_eq] at h ⊢
  by_cases hneg : n < 0
  · rw [if_pos hneg] at habs ⊢
    cases hx : x.negative <;> simp only [hx, if_true, Bool.false_eq_true, if_false] at h ⊢ <;> omega
  · have hnonneg : 0 ≤ n * (one : Int) := Int.mul_nonneg (by omega) (by omega)
    rw [if_neg hneg] at habs ⊢
    cases hx : x.negative <;> simp only [hx, if_true, Bool.false_eq_true, if_false] at h ⊢ <;> omega

/-- Conversion does not lead below a double that is not above the integer. -/
theorem le_scaled_ofInt {n : Int} (hn : n.natAbs < 2 ^ 64) (h : x.scaled ≤ n * one) : x.scaled ≤ (ofInt n).scaled := by
  have habs := natAbs_mul_one n
  have hle := units_ofInt_le (x := x) hn
  have hge := le_units_ofInt (x := x) hn
  simp only [scaled, negative_ofInt, decide_eq_true_eq] at h ⊢
  by_cases hneg : n < 0
  · have hnonpos : n * (one : Int) ≤ 0 := Int.mul_nonpos_of_nonpos_of_nonneg (by omega) (by omega)
    rw [if_pos hneg] at habs ⊢
    cases hx : x.negative <;> simp only [hx, if_true, Bool.false_eq_true, if_false] at h ⊢ <;> omega
  · rw [if_neg hneg] at habs ⊢
    cases hx : x.negative <;> simp only [hx, if_true, Bool.false_eq_true, if_false] at h ⊢ <;> omega

theorem scaled_ofInt {n : Int} (h : n.natAbs < 2 ^ 53) : (ofInt n).scaled = n * one := by
  unfold scaled
  rw [negative_ofInt, units_ofInt_of_lt h]
  by_cases hn : n < 0
  · rw [if_pos (by simpa using hn), Int.natCast_mul, Int.ofNat_natAbs_of_nonpos (by omega), Int.neg_mul, Int.neg_neg]
  · rw [if_neg (by simpa using hn), Int.natCast_mul, Int.natAbs_of_nonneg (by omega)]

end Double

end HyperQuery
