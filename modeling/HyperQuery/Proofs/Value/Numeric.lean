import Mathlib.Data.EReal.Basic
import Mathlib.Order.Compare
import HyperQuery.Proofs.Value.Equality

/-!
# Integers against doubles

An integer is converted to the nearest double before it is compared with a double. Since conversion does not lead past any
double, what comes of this is the order of the exact numbers, infinities included, unless the double is the one that the
integer is converted to and not the integer itself: then the two compare as equal (`Value.partialCompare_exact_iff`).
Integers up to `2^53` are doubles and compare exactly.
-/

namespace HyperQuery

namespace Double

variable {x y : Double} {n : Int}

/-- The number that a double stands for; a NaN stands for none. -/
noncomputable def value (x : Double) : EReal :=
  if x.isInfinite then (if x.negative then ⊥ else ⊤) else (((x.scaled : ℝ) / one : ℝ) : EReal)

private theorem one_pos_real : (0 : ℝ) < one := by
  obtain ⟨k, -, hone⟩ := exists_one_eq
  exact_mod_cast hone ▸ Nat.two_pow_pos k

/-- An infinity is further from zero than all integers of at most 64 bits. -/
private theorem lt_units_of_isInfinite (hx : x.isInfinite = true) (hn : n.natAbs < 2 ^ 64) : n.natAbs * one < x.units := by
  refine Nat.lt_of_not_le fun hle => ?_
  have hfinite : (ofInt n).magnitude ≤ infiniteMagnitude ∧ (ofInt n).magnitude ≠ infiniteMagnitude :=
    ⟨Nat.not_lt.mp (of_decide_eq_false (isNaN_ofInt n)), of_decide_eq_false (isInfinite_ofInt hn)⟩
  have hinfinite : x.magnitude = infiniteMagnitude := of_decide_eq_true hx
  have hlt : (ofInt n).units < x.units := units_lt_units_iff.mpr (by omega)
  have hge := le_units_ofInt hn hle
  omega

private theorem lt_value_iff (hn : n.natAbs < 2 ^ 64) : ((n : ℝ) : EReal) < x.value ↔ n * one < x.scaled := by
  unfold value
  split
  · rename_i hinfinite
    have hunits := lt_units_of_isInfinite hinfinite hn
    have habs := natAbs_mul_one n
    unfold scaled
    split
    · simp only [not_lt_bot, false_iff, not_lt]
      split at habs <;> omega
    · simp only [EReal.coe_lt_top, true_iff]
      split at habs <;> omega
  · rw [EReal.coe_lt_coe_iff, lt_div_iff₀ one_pos_real]
    exact_mod_cast Iff.rfl

private theorem value_lt_iff (hn : n.natAbs < 2 ^ 64) : x.value < ((n : ℝ) : EReal) ↔ x.scaled < n * one := by
  unfold value
  split
  · rename_i hinfinite
    have hunits := lt_units_of_isInfinite hinfinite hn
    have habs := natAbs_mul_one n
    unfold scaled
    split
    · simp only [EReal.bot_lt_coe, true_iff]
      split at habs <;> omega
    · simp only [not_top_lt, false_iff, not_lt]
      split at habs <;> omega
  · rw [EReal.coe_lt_coe_iff, div_lt_iff₀ one_pos_real]
    exact_mod_cast Iff.rfl

/-- A double stands for an integer exactly if it has its value in units. -/
theorem value_eq_int_iff (hn : n.natAbs < 2 ^ 64) : x.value = ((n : ℝ) : EReal) ↔ x.scaled = n * one := by
  have hlt := lt_value_iff (x := x) hn
  have hgt := value_lt_iff (x := x) hn
  constructor
  · intro h
    rw [h] at hlt hgt
    have h1 : ¬ n * (one : Int) < x.scaled := hlt.not.mp (lt_irrefl _)
    have h2 : ¬ x.scaled < n * (one : Int) := hgt.not.mp (lt_irrefl _)
    omega
  · intro h
    exact le_antisymm (not_lt.mp (hlt.not.mpr (by omega))) (not_lt.mp (hgt.not.mpr (by omega)))

/-- The exact order of an integer and a double is the order of their values in units. -/
theorem cmp_value (hn : n.natAbs < 2 ^ 64) : cmp ((n : ℝ) : EReal) x.value = compare (n * one) x.scaled := by
  rcases lt_trichotomy (n * one : Int) x.scaled with h | h | h
  · rw [((lt_value_iff hn).mpr h).cmp_eq_lt, compare_lt_iff_lt.mpr h]
  · rw [((value_eq_int_iff hn).mpr h.symm).symm.cmp_eq_eq, compare_eq_iff_eq.mpr h]
  · rw [((value_lt_iff hn).mpr h).cmp_eq_gt, compare_gt_iff_gt.mpr h]

theorem natAbs_scaled : x.scaled.natAbs = x.units := by
  unfold scaled
  split <;> omega

/-- A double stands for the number that an integer is converted to exactly if it has the same value in units. -/
theorem value_eq_ofInt_iff (hn : n.natAbs < 2 ^ 64) : x.value = (ofInt n).value ↔ x.scaled = (ofInt n).scaled := by
  have hfinite : (ofInt n).isInfinite = false := isInfinite_ofInt hn
  by_cases hx : x.isInfinite = true
  · have hvalue : x.value ≠ (ofInt n).value := by
      unfold value
      rw [if_pos hx, if_neg (show ¬ (ofInt n).isInfinite = true by simp [hfinite])]
      split
      · exact EReal.bot_ne_coe _
      · exact EReal.top_ne_coe _
    refine iff_of_false hvalue fun h => ?_
    have hunits : x.units = (ofInt n).units := by rw [← natAbs_scaled, ← natAbs_scaled, h]
    have hmagnitude := units_eq_units_iff.mp hunits
    unfold isInfinite at hx hfinite
    rw [hmagnitude] at hx
    rw [hx] at hfinite
    exact Bool.noConfusion hfinite
  · unfold value
    rw [if_neg hx, if_neg (by simp [hfinite]), EReal.coe_eq_coe_iff, div_left_inj' one_pos_real.ne']
    exact_mod_cast Iff.rfl

/-- After conversion an integer compares as before, unless it has become the double and was another number. -/
private theorem compare_ofInt_eq_iff (hn : n.natAbs < 2 ^ 64) :
    compare (ofInt n).scaled x.scaled = compare (n * one) x.scaled ↔
      (x.scaled = (ofInt n).scaled → x.scaled = n * one) := by
  -- conversion does not lead past the double, so the only thing that can become of an order is equality
  rcases lt_trichotomy (n * one : Int) x.scaled with h | h | h
  · have hle : (ofInt n).scaled ≤ x.scaled := scaled_ofInt_le hn h.le
    rw [compare_lt_iff_lt.mpr h, compare_lt_iff_lt]
    omega
  · have hle : (ofInt n).scaled ≤ x.scaled := scaled_ofInt_le hn h.le
    have hge : x.scaled ≤ (ofInt n).scaled := le_scaled_ofInt hn h.ge
    rw [compare_eq_iff_eq.mpr h, compare_eq_iff_eq]
    omega
  · have hge : x.scaled ≤ (ofInt n).scaled := le_scaled_ofInt hn h.le
    rw [compare_gt_iff_gt.mpr h, compare_gt_iff_gt]
    omega

/-- Integers up to `2^53` are doubles. -/
theorem scaled_ofInt_of_le (h : n.natAbs ≤ 2 ^ 53) : (ofInt n).scaled = n * one := by
  rcases Nat.lt_or_eq_of_le h with hlt | heq
  · exact scaled_ofInt hlt
  · rcases Int.natAbs_eq n with hn | hn <;> rw [hn, heq] <;> decide +kernel

end Double

namespace Value

open Double

theorem partialCompare_int_float {n : Int64} {x : Double} (hx : x.isNaN = false) :
    partialCompare (.int n) (.float x) = some (Ord.compare (ofInt n.toInt).scaled x.scaled) := by
  show (ofInt n.toInt).partialCompare x = _
  rw [Double.partialCompare, isNaN_ofInt, hx]
  rfl

/-- An integer and a double compare as the exact numbers do, infinities beyond all integers, unless the double is what the
integer is converted to and another number; in that case they are taken to be equal. This does not happen to integers up to
`2^53`. The other way round the comparison is reversed. -/
theorem partialCompare_exact_iff (n : Int64) (x : Double) (hx : x.isNaN = false) :
    (partialCompare (.int n) (.float x) = some (cmp ((n.toInt : ℝ) : EReal) x.value) ↔
      (x.value = (ofInt n.toInt).value → x.value = ((n.toInt : ℝ) : EReal))) ∧
      (x.value = (ofInt n.toInt).value → partialCompare (.int n) (.float x) = some .eq) ∧
      (n.toInt.natAbs ≤ 2 ^ 53 → partialCompare (.int n) (.float x) = some (cmp ((n.toInt : ℝ) : EReal) x.value)) ∧
      partialCompare (.float x) (.int n) = (partialCompare (.int n) (.float x)).map Ordering.swap := by
  have hn := natAbs_toInt_lt n
  rw [partialCompare_int_float hx, cmp_value hn, value_eq_ofInt_iff hn, value_eq_int_iff hn]
  refine ⟨?_, fun h => ?_, fun h => ?_, ?_⟩
  · rw [Option.some_inj]
    exact compare_ofInt_eq_iff hn
  · rw [h, compare_eq_iff_eq.mpr rfl]
  · rw [scaled_ofInt_of_le h]
  · show x.partialCompare (ofInt n.toInt) = _
    rw [Double.partialCompare, isNaN_ofInt, hx, Option.map_some, ← Int.compare_swap]
    rfl

/-- The first integer that is not a double, and the double below it that it is converted to. -/
theorem partialCompare_exact_iff_rounded :
    let n : Int64 := 9007199254740993
    let x : Double := ⟨0x4340000000000000⟩
    x.isNaN = false ∧ partialCompare (.int n) (.float x) = some .eq ∧
      (partialCompare (.int n) (.float x) = some (cmp ((n.toInt : ℝ) : EReal) x.value) ↔
        (x.value = (ofInt n.toInt).value → x.value = ((n.toInt : ℝ) : EReal))) := by
  intro n x
  have hx : x.isNaN = false := by decide
  have hexact := partialCompare_exact_iff n x hx
  exact ⟨hx, hexact.2.1 ((value_eq_ofInt_iff (natAbs_toInt_lt n)).mpr (by decide +kernel)), hexact.1⟩

/-- An integer that is greater than a double and is taken to be equal to it. -/
theorem exists_rounded_comparison : ∃ (n : Int64) (x : Double), x.isNaN = false ∧
    cmp ((n.toInt : ℝ) : EReal) x.value = .gt ∧ partialCompare (.int n) (.float x) ≠ some .gt := by
  refine ⟨9007199254740993, ⟨0x4340000000000000⟩, by decide, ?_, by decide +kernel⟩
  rw [cmp_value (natAbs_toInt_lt _)]
  decide +kernel

end Value

end HyperQuery
