import HyperQuery.Proofs.Double.Order
import HyperQuery.Proofs.Store.Postings
import HyperQuery.Proofs.Value.Order
import HyperQuery.Store.Index

/-!
# Index look-ups are complete

Every key that satisfies a comparison lies in one of the two ranges that are read (`exists_keySpan`): keys of the same
kind in the first one, and numbers of the other kind in the second one, where an integer and a double are compared in
units. So a look-up finds exactly the handles under the keys that satisfy the comparison (`mem_matching`).
-/

namespace HyperQuery

namespace KeySpan

/-- Whether a key lies in the range. -/
def Contains (span : KeySpan) (v : Value) : Prop := span.lower.isBelow v = true ∧ span.upper.isAbove v = true

/-- A key of the kind of the searched one lies in the first range if it satisfies the comparison. -/
theorem contains_own {op : Comparison} {key v : Value} (h : op.accepts (v.compare key) = true) :
    (own op key).Contains v := by
  have hswap : compare key v = (v.compare key).swap := Value.compare_swap key v
  have hown : compare v key = v.compare key := rfl
  unfold Contains own
  rcases hc : v.compare key with _ | _ | _ <;> rw [hc] at h hswap hown <;> cases op <;>
    simp_all [Comparison.accepts, Postings.Bound.isBelow, Postings.Bound.isAbove]

/-- A key lies in the range of another kind if it is within that kind, and within the bounds on the side that its order
relative to the searched key calls for. -/
theorem contains_cross {op : Comparison} {low high first last v : Value} {o : Ordering} (ho : op.accepts o = true)
    (hlow : o ≠ .lt → compare low v ≠ .gt) (hhigh : o ≠ .gt → compare v high ≠ .gt)
    (hfirst : compare first v ≠ .gt) (hlast : compare v last ≠ .gt) : (cross op low high first last).Contains v := by
  unfold Contains cross
  cases op <;> cases o <;>
    simp_all [Comparison.accepts, Postings.Bound.isBelow, Postings.Bound.isAbove]

/-! ### Doubles around an integer -/

private theorem compare_float_ne_gt {x y : Double} (h : x.totalKey ≤ y.totalKey) :
    compare (Value.float x) (Value.float y) ≠ .gt := by
  show Double.totalCompare x y ≠ .gt
  rw [Double.totalCompare, Ne, Std.compare_eq_gt]
  omega

private theorem totalKey_of_isZero {x : Double} (h : x.isZero = true) :
    x.totalKey = if x.negative then -1 else 0 := by
  unfold Double.isZero at h
  simp only [decide_eq_true_eq] at h
  unfold Double.totalKey
  rw [h]
  rfl

private theorem totalKey_negativeZero : Double.negativeZero.totalKey = -1 := by decide +kernel

private theorem totalKey_infinities {x : Double} (h : x.isNaN = false) :
    Double.negativeInfinity.totalKey ≤ x.totalKey ∧ x.totalKey ≤ Double.infinity.totalKey := by
  have hneg : Double.negativeInfinity.totalKey = -1 - (Double.infiniteMagnitude : Int) := by decide +kernel
  have hpos : Double.infinity.totalKey = (Double.infiniteMagnitude : Int) := by decide +kernel
  unfold Double.isNaN at h
  simp only [decide_eq_false_iff_not, Nat.not_lt] at h
  rw [hneg, hpos]
  unfold Double.totalKey
  split <;> omega

theorem contains_doublesAround {op : Comparison} {n : Int64} {y : Double} (hy : y.isNaN = false)
    (h : op.accepts (compare y.scaled (Double.ofInt n.toInt).scaled) = true) :
    (doublesAround op n).Contains (.float y) := by
  have hinf := totalKey_infinities hy
  -- if the integer is zero, both zeros equal it, and the range begins at the negative one
  have hzero : (Double.ofInt n.toInt).isZero = true → (Double.ofInt n.toInt).totalKey = 0 := by
    intro hx
    have hn := Double.eq_zero_of_isZero_ofInt (n := n.toInt) (by have := n.le_toInt; have := n.toInt_lt; omega) hx
    rw [totalKey_of_isZero hx, Double.negative_ofInt, hn]
    rfl
  generalize hx : Double.ofInt n.toInt = x at h hzero
  have hyzero : y.isZero = true → -1 ≤ y.totalKey ∧ y.totalKey ≤ 0 := by
    intro hy
    rw [totalKey_of_isZero hy]
    split <;> omega
  unfold doublesAround
  rw [hx]
  refine contains_cross h (fun ho => compare_float_ne_gt ?_) (fun ho => compare_float_ne_gt ?_)
    (compare_float_ne_gt hinf.1) (compare_float_ne_gt hinf.2)
  · rw [Ne, Std.compare_eq_lt] at ho
    have hle : x.scaled ≤ y.scaled := by omega
    rcases Int.lt_or_eq_of_le hle with hlt | heq
    · have hkey := Double.totalKey_lt_of_scaled_lt hlt
      split
      · rename_i hxz
        rw [totalKey_negativeZero]
        have := hzero hxz
        omega
      · omega
    · rcases Double.eq_or_isZero_of_scaled_eq heq with rfl | ⟨hxz, hyz⟩
      · split
        · rename_i hxz
          rw [totalKey_negativeZero, hzero hxz]
          omega
        · exact Int.le_refl _
      · rw [if_pos hxz, totalKey_negativeZero]
        exact (hyzero hyz).1
  · rw [Ne, Std.compare_eq_gt] at ho
    have hle : y.scaled ≤ x.scaled := by omega
    rcases Int.lt_or_eq_of_le hle with hlt | heq
    · exact Int.le_of_lt (Double.totalKey_lt_of_scaled_lt hlt)
    · rcases Double.eq_or_isZero_of_scaled_eq heq with rfl | ⟨hyz, hxz⟩
      · exact Int.le_refl _
      · rw [hzero hxz]
        exact (hyzero hyz).2

/-! ### Integers around a double -/

private theorem compare_int_ne_gt {m n : Int64} (h : m.toInt ≤ n.toInt) :
    compare (Value.int m) (Value.int n) ≠ .gt := by
  show Ord.compare m n ≠ .gt
  rw [Ne, Std.compare_eq_gt, Int64.lt_iff_toInt_lt]
  omega

/-- The value of an integer as a double: exact, or at least as far from zero as `2^53`. -/
private theorem scaled_ofInt_cases (n : Int64) :
    (n.toInt.natAbs < 2 ^ 53 ∧ (Double.ofInt n.toInt).scaled = n.toInt * (Double.one : Int)) ∨
    (2 ^ 53 ≤ n.toInt ∧ 2 ^ 53 * (Double.one : Int) ≤ (Double.ofInt n.toInt).scaled) ∨
    (n.toInt ≤ -2 ^ 53 ∧ (Double.ofInt n.toInt).scaled ≤ -(2 ^ 53 * (Double.one : Int))) := by
  rcases Nat.lt_or_ge n.toInt.natAbs (2 ^ 53) with h | h
  · exact .inl ⟨h, Double.scaled_ofInt h⟩
  · right
    have hunits := Double.units_ofInt_ge h (by have := n.le_toInt; have := n.toInt_lt; omega)
    unfold Double.scaled
    rw [Double.negative_ofInt]
    generalize Double.one = u at hunits ⊢
    have hcast : (2 ^ 53 * (u : Int)) ≤ ((Double.ofInt n.toInt).units : Int) := by exact_mod_cast hunits
    by_cases hn : n.toInt < 0
    · rw [if_pos (by simpa using hn)]
      exact .inr ⟨by omega, by omega⟩
    · rw [if_neg (by simpa using hn)]
      exact .inl ⟨by omega, hcast⟩

private theorem scaled_bounds {x : Double} (h : x.units < Double.one <<< 53) :
    -(2 ^ 53 * (Double.one : Int)) < x.scaled ∧ x.scaled < 2 ^ 53 * (Double.one : Int) := by
  rw [Nat.shiftLeft_eq, Nat.mul_comm] at h
  unfold Double.scaled
  generalize Double.one = u at h ⊢
  have hcast : (x.units : Int) < 2 ^ 53 * (u : Int) := by exact_mod_cast h
  split <;> omega

section Rounding

variable {s t u m : Int}

private theorem ediv_bounds (hu : 0 < u) (hs : -(2 ^ 53 * u) < s ∧ s < 2 ^ 53 * u) :
    -2 ^ 53 ≤ s / u ∧ s / u < 2 ^ 53 := by
  refine ⟨(Int.le_ediv_iff_mul_le hu).mpr ?_, (Int.ediv_lt_iff_lt_mul hu).mpr hs.2⟩
  rw [Int.neg_mul]
  omega

private theorem ediv_le (hu : 0 < u) (hs : -(2 ^ 53 * u) < s ∧ s < 2 ^ 53 * u)
    (ht : (m.natAbs < 2 ^ 53 ∧ t = m * u) ∨ (2 ^ 53 ≤ m ∧ 2 ^ 53 * u ≤ t) ∨ (m ≤ -2 ^ 53 ∧ t ≤ -(2 ^ 53 * u)))
    (h : s ≤ t) : s / u ≤ m := by
  have hb := ediv_bounds hu hs
  rcases ht with ⟨-, rfl⟩ | ⟨hm, -⟩ | ⟨-, ht⟩
  · have : s / u * u ≤ m * u := Int.le_trans (Int.ediv_mul_le _ (by omega)) h
    exact Int.le_of_mul_le_mul_right this hu
  · omega
  · omega

end Rounding

theorem contains_integersAround {op : Comparison} {m : Int64} {x : Double}
    (h : op.accepts (compare (Double.ofInt m.toInt).scaled x.scaled) = true) :
    (integersAround op x).Contains (.int m) := by
  have hmin : (Int64.minValue).toInt = -2 ^ 63 := rfl
  have hmax : (Int64.maxValue).toInt = 2 ^ 63 - 1 := rfl
  have hm1 := m.le_toInt
  have hm2 := m.toInt_lt
  have hfirst : compare (Value.int Int64.minValue) (.int m) ≠ .gt := compare_int_ne_gt (by omega)
  have hlast : compare (Value.int m) (.int Int64.maxValue) ≠ .gt := compare_int_ne_gt (by omega)
  have hcases := scaled_ofInt_cases m
  have hone : 0 < (Double.one : Int) := by
    obtain ⟨k, -, hone⟩ := Double.exists_one_eq
    rw [hone]
    exact_mod_cast Nat.two_pow_pos k
  unfold integersAround
  by_cases hx : x.units < Double.one <<< 53
  · simp only [if_pos hx]
    have hbound := scaled_bounds hx
    clear hx
    unfold Double.floor Double.ceil
    generalize (Double.one : Int) = u at hone hbound hcases ⊢
    -- rounding up is rounding down on the other side of zero
    have hfloor := ediv_bounds hone hbound
    have hceil := ediv_bounds (s := -x.scaled) hone (by omega)
    have h1 : (Int64.ofInt (x.scaled / u)).toInt = x.scaled / u := Int64.toInt_ofInt_of_le (by omega) (by omega)
    have h2 : (Int64.ofInt (-(-x.scaled / u))).toInt = -(-x.scaled / u) :=
      Int64.toInt_ofInt_of_le (by omega) (by omega)
    refine contains_cross h (fun ho => compare_int_ne_gt ?_) (fun ho => compare_int_ne_gt ?_) hfirst hlast
    · rw [Ne, Std.compare_eq_lt] at ho
      rw [h1]
      exact ediv_le hone hbound hcases (by omega)
    · rw [Ne, Std.compare_eq_gt] at ho
      rw [h2]
      have hneg : -x.scaled / u ≤ -m.toInt := by
        refine ediv_le (t := -(Double.ofInt m.toInt).scaled) hone (by omega) ?_ (by omega)
        rw [Int.neg_mul]
        omega
      omega
  · -- the double is out of reach of exact integers, and the range is that of all integers
    simp only [if_neg hx]
    exact contains_cross h (fun _ => hfirst) (fun _ => hlast) hfirst hlast

end KeySpan

private theorem any_partialCompare {op : Comparison} {x y : Double}
    (h : (x.partialCompare y).any op.accepts = true) :
    x.isNaN = false ∧ y.isNaN = false ∧ op.accepts (compare x.scaled y.scaled) = true := by
  unfold Double.partialCompare at h
  split at h
  · simp at h
  · rename_i hnan
    simp only [Bool.or_eq_true, not_or, Bool.not_eq_true] at hnan
    exact ⟨hnan.1, hnan.2, h⟩

/-- Every key that satisfies a comparison lies in one of the ranges that are read for it. -/
theorem exists_keySpan {op : Comparison} {key v : Value} (h : v.satisfies op key = true) :
    ∃ span ∈ keySpans op key, span.Contains v := by
  unfold Value.satisfies Value.partialCompare at h
  split at h
  · rename_i m x
    obtain ⟨-, hx, h⟩ := any_partialCompare h
    exact ⟨.integersAround op x, by simp [keySpans, hx], KeySpan.contains_integersAround h⟩
  · rename_i y n
    obtain ⟨hy, -, h⟩ := any_partialCompare h
    exact ⟨.doublesAround op n, by simp [keySpans], KeySpan.contains_doublesAround hy h⟩
  · split at h
    · exact ⟨.own op key, by simp [keySpans], KeySpan.contains_own h⟩
    · simp at h

/-- A look-up finds the handles under the keys that satisfy the comparison. -/
theorem IndexHandle.mem_matching {h : IndexHandle} {s : Store} {op : Comparison} {key : Value} {id : AtomId}
    (hasc : (h.entries s).Ascending) :
    id ∈ h.matching s op key ↔ ∃ v, (h.entries s).Has v id ∧ v.satisfies op key = true := by
  unfold matching
  simp only [List.mem_flatMap]
  constructor
  · rintro ⟨span, -, ⟨v, ids⟩, hentry, hid⟩
    split at hid
    · rename_i hsat
      exact ⟨v, ⟨ids, ((Postings.mem_span hasc).mp hentry).1, hid⟩, hsat⟩
    · simp at hid
  · rintro ⟨v, ⟨ids, hentry, hid⟩, hsat⟩
    obtain ⟨span, hspan, hlower, hupper⟩ := exists_keySpan hsat
    exact ⟨span, hspan, (v, ids), (Postings.mem_span hasc).mpr ⟨hentry, hlower, hupper⟩, by simp [hsat, hid]⟩

end HyperQuery
