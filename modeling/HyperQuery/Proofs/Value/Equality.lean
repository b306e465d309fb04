import HyperQuery.Proofs.Double.Order
import HyperQuery.Proofs.Value.Order

/-!
# Equality in the sense of conditions

A value satisfies an equality with a literal if the two are the same, or an integer and a double of the same value
(`satisfies_eq_iff`). Integers from `2^53` on are rounded for that comparison, and the two zeros differ from each
other while both equal the integer zero. So one value can equal two literals that do not equal each other, exactly if
they are mistaken for each other in one of these ways (`exists_satisfies_eq_both_iff`).
-/

namespace HyperQuery

namespace Value

/-- The integer and the double have the same value, once the integer is rounded. -/
def SameNumber (n : Int64) (x : Double) : Prop := x.isNaN = false ∧ (Double.ofInt n.toInt).scaled = x.scaled

private theorem partialCompare_double_eq_iff {x y : Double} :
    x.partialCompare y = some .eq ↔ x.isNaN = false ∧ y.isNaN = false ∧ x.scaled = y.scaled := by
  unfold Double.partialCompare
  split
  · rename_i h
    simp only [Bool.or_eq_true] at h
    simp only [reduceCtorEq, false_iff]
    rintro ⟨hx, hy, -⟩
    simp [hx, hy] at h
  · rename_i h
    simp only [Bool.or_eq_true, not_or, Bool.not_eq_true] at h
    simp [h.1, h.2]

theorem satisfies_eq_iff_partialCompare {x v : Value} :
    x.satisfies .eq v = true ↔ x.partialCompare v = some .eq := by
  unfold satisfies
  rcases x.partialCompare v with _ | o
  · simp
  · cases o <;> simp [Comparison.accepts]

/-- The values that satisfy an equality. -/
theorem satisfies_eq_iff {x v : Value} :
    x.satisfies .eq v = true ↔
      x = v ∨ ∃ n y, SameNumber n y ∧ (x = .int n ∧ v = .float y ∨ x = .float y ∧ v = .int n) := by
  rw [satisfies_eq_iff_partialCompare]
  by_cases hcross : (∃ n y, x = .int n ∧ v = .float y) ∨ ∃ n y, x = .float y ∧ v = .int n
  · rcases hcross with ⟨n, y, rfl, rfl⟩ | ⟨n, y, rfl, rfl⟩
    · simp [partialCompare, partialCompare_double_eq_iff, Double.isNaN_ofInt, SameNumber]
    · simp only [partialCompare, partialCompare_double_eq_iff, Double.isNaN_ofInt, SameNumber]
      constructor
      · rintro ⟨hy, -, h⟩
        exact .inr ⟨n, y, ⟨hy, h.symm⟩, .inr ⟨rfl, rfl⟩⟩
      · rintro (h | ⟨m, z, ⟨hz, h⟩, ⟨hm, -⟩ | ⟨hm, hn⟩⟩)
        · simp at h
        · simp at hm
        · cases hm
          cases hn
          exact ⟨hz, trivial, h.symm⟩
  · have hplain : x.partialCompare v = if x.kindRank = v.kindRank then some (x.compare v) else none := by
      unfold partialCompare
      split
      · exact absurd (.inl ⟨_, _, rfl, rfl⟩) hcross
      · exact absurd (.inr ⟨_, _, rfl, rfl⟩) hcross
      · rfl
    rw [hplain]
    constructor
    · intro h
      split at h
      · exact .inl (compare_eq_iff.mp (Option.some.inj h))
      · simp at h
    · rintro (rfl | ⟨n, y, -, ⟨rfl, rfl⟩ | ⟨rfl, rfl⟩⟩)
      · rw [if_pos rfl, compare_self]
      · exact absurd (.inl ⟨_, _, rfl, rfl⟩) hcross
      · exact absurd (.inr ⟨_, _, rfl, rfl⟩) hcross

/-- The literals differ, but one value equals both of them: integers with the same nearest double, or zeros of
different sign. -/
def Mistaken (v w : Value) : Prop :=
  (∃ m n : Int64, v = .int m ∧ w = .int n ∧ m ≠ n ∧ Double.ofInt m.toInt = Double.ofInt n.toInt) ∨
  ∃ x y : Double, v = .float x ∧ w = .float y ∧ x ≠ y ∧ x.isZero = true ∧ y.isZero = true

theorem satisfies_eq_comm {v w : Value} (h : v.satisfies .eq w = true) : w.satisfies .eq v = true := by
  rcases satisfies_eq_iff.mp h with h | ⟨n, y, hn, h⟩
  · exact satisfies_eq_iff.mpr (.inl h.symm)
  · exact satisfies_eq_iff.mpr (.inr ⟨n, y, hn, h.symm.imp And.symm And.symm⟩)

theorem natAbs_toInt_lt (n : Int64) : n.toInt.natAbs < 2 ^ 64 := by
  have h1 := n.le_toInt
  have h2 := n.toInt_lt
  omega

private theorem eq_of_same_double {m n : Int64} {x : Double} (hm : SameNumber m x) (hn : SameNumber n x) :
    m = n ∨ Double.ofInt m.toInt = Double.ofInt n.toInt := by
  rcases Double.eq_or_isZero_of_scaled_eq (hm.2.trans hn.2.symm) with h | ⟨hm, hn⟩
  · exact .inr h
  · left
    rw [← Int64.toInt_inj, Double.eq_zero_of_isZero_ofInt (natAbs_toInt_lt m) hm,
      Double.eq_zero_of_isZero_ofInt (natAbs_toInt_lt n) hn]

/-- A value that equals two literals that do not equal each other exists exactly if the literals are mistaken. -/
theorem exists_satisfies_eq_both_iff {v w : Value} :
    (v.partialCompare w ≠ some .eq ∧ ∃ x : Value, x.satisfies .eq v = true ∧ x.satisfies .eq w = true) ↔
      Mistaken v w := by
  rw [Ne, ← satisfies_eq_iff_partialCompare]
  constructor
  · rintro ⟨hne, x, hv, hw⟩
    rcases satisfies_eq_iff.mp hv with rfl | ⟨n, y, hny, ⟨rfl, rfl⟩ | ⟨rfl, rfl⟩⟩
    · exact absurd hw hne
    · rcases satisfies_eq_iff.mp hw with rfl | ⟨m, z, hmz, ⟨hx, rfl⟩ | ⟨hx, -⟩⟩
      · exact absurd (satisfies_eq_comm hv) hne
      · cases hx
        rcases Double.eq_or_isZero_of_scaled_eq (hny.2.symm.trans hmz.2) with rfl | ⟨hy, hz⟩
        · exact absurd (satisfies_eq_iff.mpr (.inl rfl)) hne
        · refine .inr ⟨y, z, rfl, rfl, ?_, hy, hz⟩
          rintro rfl
          exact hne (satisfies_eq_iff.mpr (.inl rfl))
      · simp at hx
    · rcases satisfies_eq_iff.mp hw with rfl | ⟨m, z, hmz, ⟨hx, -⟩ | ⟨hx, rfl⟩⟩
      · exact absurd (satisfies_eq_comm hv) hne
      · simp at hx
      · cases hx
        have hnm : n ≠ m := by
          rintro rfl
          exact hne (satisfies_eq_iff.mpr (.inl rfl))
        exact .inl ⟨n, m, rfl, rfl, hnm, (eq_of_same_double hny hmz).resolve_left hnm⟩
  · rintro (⟨m, n, rfl, rfl, hne, h⟩ | ⟨y, z, rfl, rfl, hne, hy, hz⟩)
    · refine ⟨fun hsat => ?_, .float (Double.ofInt m.toInt), ?_, ?_⟩
      · rcases satisfies_eq_iff.mp hsat with h | ⟨_, _, -, ⟨-, h⟩ | ⟨h, -⟩⟩
        · exact hne (Value.int.inj h)
        · simp at h
        · simp at h
      · exact satisfies_eq_iff.mpr (.inr ⟨m, _, ⟨Double.isNaN_ofInt _, rfl⟩, .inr ⟨rfl, rfl⟩⟩)
      · exact satisfies_eq_iff.mpr (.inr ⟨n, _, ⟨Double.isNaN_ofInt _, by rw [h]⟩, .inr ⟨rfl, rfl⟩⟩)
    · have hzero : ∀ x : Double, x.isZero = true → SameNumber 0 x := fun x hx =>
        ⟨Double.isNaN_eq_false_of_isZero hx, by rw [Double.scaled_eq_zero_of_isZero hx]; rfl⟩
      refine ⟨fun hsat => ?_, .int 0, ?_, ?_⟩
      · rcases satisfies_eq_iff.mp hsat with h | ⟨_, _, -, ⟨h, -⟩ | ⟨-, h⟩⟩
        · exact hne (Value.float.inj h)
        · simp at h
        · simp at h
      · exact satisfies_eq_iff.mpr (.inr ⟨0, y, hzero y hy, .inl ⟨rfl, rfl⟩⟩)
      · exact satisfies_eq_iff.mpr (.inr ⟨0, z, hzero z hz, .inl ⟨rfl, rfl⟩⟩)

end Value

end HyperQuery
