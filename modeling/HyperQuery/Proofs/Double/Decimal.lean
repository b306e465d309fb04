import Mathlib.Tactic.Ring
import Mathlib.Tactic.Linarith
import Mathlib.Tactic.FieldSimp
import Mathlib.Algebra.Order.Field.Rat
import HyperQuery.Double.Decimal
import HyperQuery.Proofs.Double.Order
import HyperQuery.Proofs.Text

/-!
# Decimal texts tell doubles apart

The shortest decimal of a double lies in its neighbourhood (`shortest_mem`), the neighbourhoods of different doubles
have no number in common (`Neighbourhood.Has.magnitude_eq`), and a decimal can be read back from its text
(`Decimal.value_eq_of_positional_eq`). So doubles of one text are the same, unless they are NaNs (`text_eq_iff`).
-/

namespace HyperQuery

namespace Decimal

/-- The number that a decimal stands for. -/
def value (d : Decimal) : ℚ := d.digits * (10 : ℚ) ^ d.exponent

theorem tenTo_eq (n : Nat) : tenTo n = 10 ^ n := rfl

theorem tenTo_pos (n : Nat) : 0 < tenTo n := Nat.pow_pos (by decide)

theorem tenTo_add (m n : Nat) : tenTo (m + n) = tenTo m * tenTo n := pow_add 10 m n

theorem length_toDigits_le {n k : Nat} (hk : 0 < k) (h : n < tenTo k) : (Nat.toDigits 10 n).length ≤ k :=
  (Nat.length_toDigits_le_iff (by decide) hk).mpr h

/-- Trailing zeros go into the exponent. -/
theorem value_stripZeros (n : Nat) (d : Decimal) : (stripZeros n d).value = d.value := by
  induction n generalizing d with
  | zero => rfl
  | succ n ih =>
    unfold stripZeros
    split
    · rename_i h
      have hdigits : (d.digits : ℚ) = (d.digits / 10 : ℕ) * 10 := by
        exact_mod_cast (Nat.div_mul_cancel (Nat.dvd_of_mod_eq_zero h.2)).symm
      rw [ih, value, value, hdigits, zpow_add_one₀ (by norm_num)]
      ring
    · rfl

/-- The digits of a whole part and a fraction as a number. -/
theorem value_eq_wholeAndFraction (d : Decimal) :
    d.value = (Nat.ofDigitChars 10 (d.wholeAndFraction.1 ++ d.wholeAndFraction.2) 0 : ℕ) /
      (10 : ℚ) ^ d.wholeAndFraction.2.length := by
  unfold wholeAndFraction value
  have hdigits : Nat.ofDigitChars 10 d.digitChars 0 = d.digits := Nat.ofDigitChars_ten_toDigits
  dsimp only
  by_cases he : 0 ≤ d.exponent
  · obtain ⟨e, he'⟩ := Int.eq_ofNat_of_zero_le he
    rw [if_pos he, List.append_nil, Nat.ofDigitChars_append, Nat.ofDigitChars_replicate_zero, hdigits, he']
    simp [mul_comm]
  · obtain ⟨e, he'⟩ : ∃ e : ℕ, d.exponent = -(e : ℤ) := ⟨(-d.exponent).toNat, by omega⟩
    rw [if_neg he, he']
    have hvalue : (d.digits : ℚ) * 10 ^ (-(e : ℤ)) = d.digits / 10 ^ e := by
      rw [zpow_neg, zpow_natCast, div_eq_mul_inv]
    rw [hvalue]
    have hplaces : (- -(e : ℤ)).toNat = e := by omega
    rw [hplaces]
    split
    · rename_i hlt
      rw [List.take_append_drop, hdigits, List.length_drop]
      congr 2
      omega
    · rename_i hle
      have hzeros : ['0'] ++ (List.replicate (e - d.digitChars.length) '0' ++ d.digitChars) =
          List.replicate (e - d.digitChars.length + 1) '0' ++ d.digitChars := by
        rw [List.replicate_succ, List.cons_append]
        rfl
      rw [hzeros, Nat.ofDigitChars_append, Nat.ofDigitChars_replicate_zero, Nat.mul_zero, hdigits, List.length_append,
        List.length_replicate]
      congr 2
      omega

theorem digit_of_mem_wholeAndFraction {d : Decimal} {c : Char}
    (h : c ∈ d.wholeAndFraction.1 ++ d.wholeAndFraction.2) : ∃ n < 10, c = n.digitChar := by
  have hdigits : ∀ c ∈ d.digitChars, ∃ n < 10, c = n.digitChar := fun c hc =>
    Text.exists_digit_of_mem_toDigits (by decide) hc
  have hzeros : ∀ m, ∀ c ∈ List.replicate m '0', ∃ n < 10, c = n.digitChar := fun m c hc =>
    ⟨0, by decide, List.eq_of_mem_replicate hc⟩
  unfold wholeAndFraction at h
  dsimp only at h
  split at h
  · rw [List.append_nil] at h
    exact (List.mem_append.mp h).elim (hdigits c) (hzeros _ c)
  · split at h
    · exact hdigits c (by rwa [List.take_append_drop] at h)
    · rcases List.mem_append.mp h with h | h
      · exact hzeros 1 c h
      · exact (List.mem_append.mp h).elim (hzeros _ c) (hdigits c)

theorem toList_positional (d : Decimal) :
    d.positional.toList =
      d.wholeAndFraction.1 ++ if d.wholeAndFraction.2.isEmpty then [] else '.' :: d.wholeAndFraction.2 := by
  simp [positional]

theorem mem_positional {d : Decimal} {c : Char} (h : c ∈ d.positional.toList) :
    c = '.' ∨ ∃ n < 10, c = n.digitChar := by
  rw [toList_positional] at h
  rcases List.mem_append.mp h with h | h
  · exact .inr (digit_of_mem_wholeAndFraction (List.mem_append_left _ h))
  · split at h
    · simp at h
    · rcases List.mem_cons.mp h with h | h
      · exact .inl h
      · exact .inr (digit_of_mem_wholeAndFraction (List.mem_append_right _ h))

theorem whole_ne_nil (d : Decimal) : d.wholeAndFraction.1 ≠ [] := by
  unfold wholeAndFraction
  dsimp only
  split
  · simp [digitChars, Nat.toDigits_ne_nil]
  · split
    · simp only [ne_eq, List.take_eq_nil_iff, not_or]
      exact ⟨by omega, Nat.toDigits_ne_nil⟩
    · simp

theorem head?_positional (d : Decimal) : ∃ n < 10, d.positional.toList.head? = some n.digitChar := by
  obtain ⟨c, whole, hwhole⟩ := List.exists_cons_of_ne_nil d.whole_ne_nil
  obtain ⟨n, hn, hc⟩ := digit_of_mem_wholeAndFraction (d := d) (c := c) (by simp [hwhole])
  exact ⟨n, hn, by simp [toList_positional, hwhole, hc]⟩

/-- A text without an exponent shows its whole part and its fraction, and so the number. -/
theorem value_eq_of_positional_eq {d e : Decimal} (h : d.positional = e.positional) : d.value = e.value := by
  have hpoint : ∀ d : Decimal, ∀ c ∈ d.wholeAndFraction.1, ¬ c = '.' := by
    intro d c hc hpt
    obtain ⟨n, hn, hcn⟩ := digit_of_mem_wholeAndFraction (List.mem_append_left _ hc)
    have hall : ∀ n : Fin 10, n.val.digitChar ≠ '.' := by decide
    exact hall ⟨n, hn⟩ (hcn ▸ hpt)
  have hrest : ∀ f : List Char, ∀ c ∈ (if f.isEmpty then [] else '.' :: f).head?, c = '.' := by
    intro f c hc
    split at hc
    · simp at hc
    · simpa [eq_comm] using hc
  have htext := congrArg String.toList h
  rw [toList_positional, toList_positional] at htext
  obtain ⟨hwhole, hfraction⟩ :=
    Text.append_inj_of_free (hpoint d) (hpoint e) (hrest _) (hrest _) htext
  have hfraction : d.wholeAndFraction.2 = e.wholeAndFraction.2 := by
    split at hfraction <;> split at hfraction <;> simp_all
  rw [value_eq_wholeAndFraction, value_eq_wholeAndFraction, hwhole, hfraction]

end Decimal

namespace Double

variable {x y : Double}

/-! ### Neighbourhoods -/

/-- How many units a magnitude lies below the next one. -/
def gapAt (m : Nat) : Nat := 2 ^ (m / exponentWeight - 1)

theorem unitsOf_succ (m : Nat) : unitsOf (m + 1) = unitsOf m + gapAt m := by
  have hpos : 0 < exponentWeight := by decide
  rcases Nat.lt_or_ge m exponentWeight with h | h
  · have hm : unitsOf m = m := by
      unfold unitsOf
      rw [if_pos (Nat.div_eq_of_lt h), Nat.mod_eq_of_lt h]
    have hgap : gapAt m = 1 := by rw [gapAt, Nat.div_eq_of_lt h, Nat.zero_sub, pow_zero]
    rw [hm, hgap]
    rcases Nat.lt_or_ge (m + 1) exponentWeight with h' | h'
    · unfold unitsOf
      rw [if_pos (Nat.div_eq_of_lt h'), Nat.mod_eq_of_lt h']
    · simpa using unitsOf_significand (e := 0) h' (by omega)
  · -- `m` is a significand with the doublings of its exponent, and so is the next one
    have hdiv := Nat.div_add_mod m exponentWeight
    have hmod := Nat.mod_lt m hpos
    have he : 1 ≤ m / exponentWeight := (Nat.le_div_iff_mul_le hpos).mpr (by omega)
    obtain ⟨e, he⟩ : ∃ e, m / exponentWeight = e + 1 := ⟨m / exponentWeight - 1, by omega⟩
    rw [he, Nat.mul_comm, Nat.add_mul, Nat.one_mul] at hdiv
    have h1 := unitsOf_significand (e := e) (m := exponentWeight + m % exponentWeight) (by omega) (by omega)
    have h2 := unitsOf_significand (e := e) (m := exponentWeight + m % exponentWeight + 1) (by omega) (by omega)
    rw [show e * exponentWeight + (exponentWeight + m % exponentWeight) = m by omega] at h1
    rw [show e * exponentWeight + (exponentWeight + m % exponentWeight + 1) = m + 1 by omega] at h2
    rw [h1, h2, gapAt, he, Nat.add_sub_cancel]
    ring

namespace Neighbourhood

/-- The lower end. -/
def low (b : Neighbourhood) : Nat := b.centre - b.below

/-- The upper end. -/
def high (b : Neighbourhood) : Nat := b.centre + b.above

/-- Whether a number of quarters of a unit lies in the neighbourhood. -/
def Has (b : Neighbourhood) (q : ℚ) : Prop :=
  if b.closed then (b.low : ℚ) ≤ q ∧ q ≤ b.high else (b.low : ℚ) < q ∧ q < b.high

theorem contains_iff {b : Neighbourhood} {num den : Nat} (hden : 0 < den) :
    b.contains num den = true ↔ b.Has ((num : ℚ) / den) := by
  have hden' : (0 : ℚ) < den := by exact_mod_cast hden
  unfold contains Has
  split
  · rw [le_div_iff₀ hden', div_le_iff₀ hden', decide_eq_true_iff]
    norm_cast
  · rw [lt_div_iff₀ hden', div_lt_iff₀ hden', decide_eq_true_iff]
    norm_cast

theorem Has.le {b : Neighbourhood} {q : ℚ} (h : b.Has q) : (b.low : ℚ) ≤ q ∧ q ≤ b.high := by
  unfold Has at h
  split at h
  · exact h
  · exact ⟨h.1.le, h.2.le⟩

theorem Has.lt {b : Neighbourhood} {q : ℚ} (h : b.Has q) (hopen : b.closed = false) :
    (b.low : ℚ) < q ∧ q < b.high := by
  simpa [Has, hopen] using h

end Neighbourhood

theorem high_neighbourhood (x : Double) :
    x.neighbourhood.high = 4 * unitsOf x.magnitude + 2 * gapAt x.magnitude := by
  simp [Neighbourhood.high, neighbourhood, gapAt, units_eq_unitsOf, exponent, Nat.one_shiftLeft]

/-- A neighbourhood begins where the one of the preceding double ends. -/
theorem low_neighbourhood {m : Nat} (h : x.magnitude = m + 1) :
    x.neighbourhood.low = 4 * unitsOf m + 2 * gapAt m := by
  have hbelow : x.neighbourhood.below = 2 * gapAt m := by
    unfold neighbourhood gapAt
    simp only [fraction, exponent, h, Nat.one_shiftLeft, exponentWeight]
    split
    · rename_i hedge
      obtain ⟨e, he⟩ : ∃ e, (m + 1) / 0x10000000000000 = e + 2 :=
        ⟨(m + 1) / 0x10000000000000 - 2, by omega⟩
      have hm : m / 0x10000000000000 = e + 1 := by omega
      rw [he, hm, show e + 2 - 1 = e + 1 by omega, show e + 1 - 1 = e by omega]
      ring
    · rename_i hinner
      have hm : (m + 1) / 0x10000000000000 - 1 = m / 0x10000000000000 - 1 := by omega
      rw [hm]
  have hcentre : x.neighbourhood.centre = 4 * unitsOf (m + 1) := by
    rw [← h]
    rfl
  rw [Neighbourhood.low, hcentre, hbelow, unitsOf_succ]
  omega

theorem gapAt_pos (m : Nat) : 0 < gapAt m := Nat.two_pow_pos _

/-- Neighbourhoods do not overlap, and only those of consecutive doubles touch. -/
theorem high_le_low (h : x.magnitude < y.magnitude) :
    x.neighbourhood.high ≤ y.neighbourhood.low ∧
      (x.neighbourhood.high = y.neighbourhood.low → y.magnitude = x.magnitude + 1) := by
  obtain ⟨m, hm⟩ : ∃ m, y.magnitude = m + 1 := ⟨y.magnitude - 1, by omega⟩
  rw [high_neighbourhood, low_neighbourhood hm]
  rcases Nat.eq_or_lt_of_le (show x.magnitude ≤ m by omega) with heq | hlt
  · subst heq
    exact ⟨le_rfl, fun _ => hm⟩
  · have hstep := unitsOf_succ x.magnitude
    have hgap := gapAt_pos x.magnitude
    have hle : unitsOf (x.magnitude + 1) ≤ unitsOf m := by
      rcases Nat.eq_or_lt_of_le (show x.magnitude + 1 ≤ m by omega) with heq | hlt'
      · rw [heq]
      · exact (unitsOf_lt_unitsOf hlt').le
    have hgap' := gapAt_pos m
    omega

/-- Doubles with a number in common in their neighbourhoods have the same magnitude: where two neighbourhoods touch,
one of the two is open, since one of the two magnitudes is odd. -/
theorem Neighbourhood.Has.magnitude_eq {q : ℚ} (hx : x.neighbourhood.Has q) (hy : y.neighbourhood.Has q) :
    x.magnitude = y.magnitude := by
  have hdisjoint : ∀ {x y : Double}, x.neighbourhood.Has q → y.neighbourhood.Has q → ¬x.magnitude < y.magnitude := by
    intro x y hx hy hlt
    obtain ⟨hle, hnext⟩ := high_le_low hlt
    have hcast : (x.neighbourhood.high : ℚ) ≤ y.neighbourhood.low := by exact_mod_cast hle
    have hmeet : x.neighbourhood.high = y.neighbourhood.low := by
      refine le_antisymm hle ?_
      exact_mod_cast hy.le.1.trans hx.le.2
    have hxc : x.neighbourhood.closed = true := by
      by_contra hopen
      have := hx.lt (by simpa using hopen)
      have := hy.le
      linarith
    have hyc : y.neighbourhood.closed = true := by
      by_contra hopen
      have := hy.lt (by simpa using hopen)
      have := hx.le
      linarith
    have hxe : x.magnitude % 2 = 0 := by simpa [neighbourhood] using hxc
    have hye : y.magnitude % 2 = 0 := by simpa [neighbourhood] using hyc
    have := hnext hmeet
    omega
  have h1 := hdisjoint hx hy
  have h2 := hdisjoint hy hx
  omega

/-! ### The shortest decimal -/

/-- The value of a decimal in quarters of a unit. -/
def quarters (d : Decimal) : ℚ := d.value * (4 * one)

theorem one_pos : 0 < one := by
  obtain ⟨k, -, hk⟩ := exists_one_eq
  rw [hk]
  exact Nat.two_pow_pos k

theorem quartersOfPower_pos (e : ℤ) : 0 < (quartersOfPower e).1 ∧ 0 < (quartersOfPower e).2 :=
  ⟨Nat.mul_pos (Nat.mul_pos (by decide) one_pos) (Decimal.tenTo_pos _), Decimal.tenTo_pos _⟩

theorem quarters_eq (digits : Nat) (e : ℤ) :
    quarters ⟨digits, e⟩ = ((digits * (quartersOfPower e).1 : ℕ) : ℚ) / (quartersOfPower e).2 := by
  have hpower : (10 : ℚ) ^ e = (10 : ℚ) ^ e.toNat / 10 ^ (-e).toNat := by
    rcases le_or_gt 0 e with he | he
    · obtain ⟨n, rfl⟩ := Int.eq_ofNat_of_zero_le he
      simp
    · obtain ⟨n, rfl⟩ : ∃ n : ℕ, e = -(n : ℤ) := ⟨(-e).toNat, by omega⟩
      simp
  simp only [quarters, Decimal.value, quartersOfPower, Decimal.tenTo_eq]
  rw [hpower]
  push_cast
  ring

theorem onGrid_has {tie : Tie} {b : Neighbourhood} {e : ℤ} {d : Decimal} (h : onGrid tie b e = some d) :
    b.Has (quarters d) := by
  have hden := (quartersOfPower_pos e).2
  unfold onGrid at h
  dsimp only at h
  split at h
  · rename_i hlow
    simp only [Bool.and_eq_true] at hlow
    obtain rfl := Option.some.inj h
    rw [quarters_eq]
    exact (Neighbourhood.contains_iff hden).mp hlow.1.1
  · split at h
    · rename_i hhigh
      obtain rfl := Option.some.inj h
      rw [quarters_eq]
      exact (Neighbourhood.contains_iff hden).mp hhigh
    · simp at h

/-- The value itself lies in its neighbourhood. -/
theorem has_centre (h : x.isZero = false) : x.neighbourhood.Has (x.neighbourhood.centre : ℚ) := by
  obtain ⟨m, hm⟩ : ∃ m, x.magnitude = m + 1 := ⟨x.magnitude - 1, by simp [isZero] at h; omega⟩
  have hlow : x.neighbourhood.low < x.neighbourhood.centre := by
    have hcentre : x.neighbourhood.centre = 4 * unitsOf (m + 1) := by
      rw [← hm]
      rfl
    have := gapAt_pos m
    rw [low_neighbourhood hm, hcentre, unitsOf_succ]
    omega
  have hhigh : x.neighbourhood.centre < x.neighbourhood.high := by
    have hcentre : x.neighbourhood.centre = 4 * unitsOf x.magnitude := rfl
    have := gapAt_pos x.magnitude
    rw [high_neighbourhood, hcentre]
    omega
  have hlow' : (x.neighbourhood.low : ℚ) < x.neighbourhood.centre := by exact_mod_cast hlow
  have hhigh' : (x.neighbourhood.centre : ℚ) < x.neighbourhood.high := by exact_mod_cast hhigh
  unfold Neighbourhood.Has
  split
  · exact ⟨hlow'.le, hhigh'.le⟩
  · exact ⟨hlow', hhigh'⟩

/-- A grid of a negative power of ten as fine as the units divides each of them. -/
private theorem exists_quartersOfPower {m : Nat} (hm : 1074 ≤ m) :
    ∃ c, 0 < c ∧ quartersOfPower (-(m : ℤ)) = (4 * one, one * c) := by
  obtain ⟨k, hk, hone⟩ := exists_one_eq
  obtain ⟨c, hc⟩ : ∃ c, 10 ^ m = one * c := by
    rw [hone]
    exact (pow_dvd_pow 2 (by omega)).trans (pow_dvd_pow_of_dvd (by decide : 2 ∣ 10) m)
  refine ⟨c, Nat.pos_of_ne_zero fun hc0 => ?_, ?_⟩
  · rw [hc0, Nat.mul_zero] at hc
    exact absurd hc (Nat.pow_pos (by decide)).ne'
  · have h0 : (-(m : ℤ)).toNat = 0 := by omega
    have h1 : (- -(m : ℤ)).toNat = m := by omega
    unfold quartersOfPower
    rw [h0, h1]
    exact Prod.ext (by simp [Decimal.tenTo]) hc

/-- A grid as fine as the units has a point for every value. -/
theorem onGrid_isSome {tie : Tie} {m : Nat} (hx : x.isZero = false) (hm : 1074 ≤ m) :
    (onGrid tie x.neighbourhood (-(m : ℤ))).isSome = true := by
  obtain ⟨c, hcpos, hquarters⟩ := exists_quartersOfPower hm
  have hcentre : x.neighbourhood.centre = 4 * x.units := rfl
  have hlow : x.neighbourhood.centre * (one * c) / (4 * one) = x.units * c := by
    rw [hcentre, show 4 * x.units * (one * c) = x.units * c * (4 * one) by ring]
    exact Nat.mul_div_cancel _ (Nat.mul_pos (by decide) one_pos)
  have hin : x.neighbourhood.contains (x.units * c * (4 * one)) (one * c) = true := by
    rw [Neighbourhood.contains_iff (Nat.mul_pos one_pos hcpos)]
    have hq : ((x.units * c * (4 * one) : ℕ) : ℚ) / ((one * c : ℕ) : ℚ) = x.neighbourhood.centre := by
      have h1 : (one : ℚ) ≠ 0 := by exact_mod_cast one_pos.ne'
      have h2 : (c : ℚ) ≠ 0 := by exact_mod_cast hcpos.ne'
      rw [hcentre]
      push_cast
      field_simp
    rw [hq]
    exact has_centre hx
  have hunits : x.units ≠ 0 := by
    rw [Ne, units_eq_zero_iff]
    simpa [isZero] using hx
  have hpoint : decide (x.units * c ≠ 0) = true := by simp [hunits, hcpos.ne']
  unfold onGrid
  rw [hquarters]
  dsimp only
  rw [hlow, hin, hpoint, Bool.true_and, Bool.true_and]
  rcases hhigh : x.neighbourhood.contains ((x.units * c + 1) * (4 * one)) (one * c) with _ | _
  · rfl
  · split <;> rfl

theorem unitsOf_infiniteMagnitude : unitsOf infiniteMagnitude = one * 2 ^ 1024 := by
  have h := unitsOf_significand (e := 2046) (m := exponentWeight) le_rfl (by decide)
  obtain ⟨k, hk, hone⟩ := exists_one_eq
  have hm : 2046 * exponentWeight + exponentWeight = infiniteMagnitude := by decide
  have hw : exponentWeight = 2 ^ 52 := by decide
  rw [← hm, h, hone, hw, ← pow_add, ← pow_add, hk]

/-- Doubles have less than 426 digits before the point. -/
theorem decimalExponent_le (h : x.magnitude < infiniteMagnitude) : x.decimalExponent ≤ 425 := by
  have hunits : x.units < one * 2 ^ 1024 := by
    rw [← unitsOf_infiniteMagnitude]
    exact unitsOf_lt_unitsOf h
  have hpow : ∀ m n : ℕ, m ≤ 3 * n → (2 : ℕ) ^ m ≤ Decimal.tenTo n := fun m n hmn =>
    calc (2 : ℕ) ^ m ≤ 2 ^ (3 * n) := Nat.pow_le_pow_right (by decide) hmn
      _ = 8 ^ n := pow_mul 2 3 n
      _ ≤ 10 ^ n := Nat.pow_le_pow_left (by decide) n
  have htwo := hpow 1024 426 (by decide)
  have hquot : x.units * Decimal.tenTo 400 / one < Decimal.tenTo 426 * Decimal.tenTo 400 := by
    have hpos := Decimal.tenTo_pos 400
    rw [Nat.div_lt_iff_lt_mul one_pos]
    calc x.units * Decimal.tenTo 400 < one * 2 ^ 1024 * Decimal.tenTo 400 := Nat.mul_lt_mul_of_pos_right hunits hpos
      _ ≤ one * Decimal.tenTo 426 * Decimal.tenTo 400 := Nat.mul_le_mul_right _ (Nat.mul_le_mul_left _ htwo)
      _ = Decimal.tenTo 426 * Decimal.tenTo 400 * one := by ring
  have hlength := Decimal.length_toDigits_le (k := 426 + 400) (by decide) (by rwa [Decimal.tenTo_add])
  unfold decimalExponent
  omega

/-- The shortest decimal of a finite double rounds to it. -/
theorem shortest_mem (tie : Tie) (hx : x.isZero = false) (hfin : x.magnitude < infiniteMagnitude) :
    x.neighbourhood.Has (quarters (x.shortest tie)) := by
  have hk := decimalExponent_le hfin
  obtain ⟨d, hd⟩ : ∃ d, (List.range digitLimit).findSome?
      (fun (n : Nat) => onGrid tie x.neighbourhood (x.decimalExponent - (n : Int))) = some d := by
    rw [← Option.isSome_iff_exists, List.findSome?_isSome_iff]
    refine ⟨(x.decimalExponent + 1074).toNat, List.mem_range.mpr (by unfold digitLimit; omega), ?_⟩
    obtain ⟨m, hm, he⟩ : ∃ m : ℕ, 1074 ≤ m ∧
        x.decimalExponent - ((x.decimalExponent + 1074).toNat : ℤ) = -(m : ℤ) :=
      ⟨(-(x.decimalExponent - ((x.decimalExponent + 1074).toNat : ℤ))).toNat, by omega, by omega⟩
    rw [he]
    exact onGrid_isSome hx hm
  obtain ⟨n, -, hn⟩ := List.exists_of_findSome?_eq_some hd
  have hvalue : quarters (x.shortest tie) = quarters d := by
    unfold shortest quarters
    rw [Decimal.value_stripZeros]
    exact congrArg (fun o : Option Decimal => (o.getD ⟨0, 0⟩).value * (4 * one)) hd
  rw [hvalue]
  exact onGrid_has hn

/-! ### Texts -/

/-- The text without its sign. -/
def unsignedText (x : Double) : String :=
  if x.isInfinite then "inf" else if x.isZero then "0" else (x.shortest .up).positional

theorem text_of_isNaN (h : x.isNaN = true) : x.text = "NaN" := by simp [text, h]

theorem text_of_not_isNaN (h : x.isNaN = false) : x.text = x.signText ++ x.unsignedText := by
  unfold text unsignedText
  simp only [h, Bool.false_eq_true, if_false]
  split
  · rfl
  · split <;> rfl

theorem mem_unsignedText {c : Char} (h : c ∈ x.unsignedText.toList) :
    c ∈ ['i', 'n', 'f', '.'] ∨ ∃ n < 10, c = n.digitChar := by
  unfold unsignedText at h
  split at h
  · have hsub : ∀ c ∈ "inf".toList, c ∈ ['i', 'n', 'f', '.'] := List.all_iff_forall_prop.mp (by decide)
    exact .inl (hsub c h)
  · split at h
    · have hzero : ∀ c ∈ "0".toList, c = Nat.digitChar 0 := List.all_iff_forall_prop.mp (by decide)
      exact .inr ⟨0, by decide, hzero c h⟩
    · exact (Decimal.mem_positional h).imp_left fun hpt => by simp [hpt]

/-- The characters of the texts of doubles. -/
def numerals : List Char := ['-', 'N', 'a', 'i', 'n', 'f', '.'] ++ (List.range 10).map Nat.digitChar

theorem mem_numerals_of_mem_signText {c : Char} (h : c ∈ x.signText.toList) : c ∈ numerals := by
  have hsub : ∀ c ∈ "-".toList, c ∈ numerals := List.all_iff_forall_prop.mp (by decide)
  unfold signText at h
  split at h
  · exact hsub c h
  · simp at h

theorem digitChar_mem_numerals {n : Nat} (h : n < 10) : n.digitChar ∈ numerals :=
  List.mem_append_right _ (List.mem_map_of_mem (List.mem_range.mpr h))

theorem mem_numerals_of_mem_text {c : Char} (h : c ∈ x.text.toList) : c ∈ numerals := by
  rcases hnan : x.isNaN with _ | _
  · rw [text_of_not_isNaN hnan, String.toList_append] at h
    rcases List.mem_append.mp h with h | h
    · exact mem_numerals_of_mem_signText h
    · rcases mem_unsignedText h with h | ⟨n, hn, rfl⟩
      · have hsub : ∀ c ∈ ['i', 'n', 'f', '.'], c ∈ numerals := List.all_iff_forall_prop.mp (by decide)
        exact hsub c h
      · exact digitChar_mem_numerals hn
  · rw [text_of_isNaN hnan] at h
    have hsub : ∀ c ∈ "NaN".toList, c ∈ numerals := List.all_iff_forall_prop.mp (by decide)
    exact hsub c h

/-- A text begins with a sign, a digit or a capital or small letter of a number that is none. -/
theorem head?_text (x : Double) : ∃ c, x.text.toList.head? = some c ∧ c ∈ numerals ∧ c ∉ ['n', 'f'] := by
  have hunsigned : ∃ c, x.unsignedText.toList.head? = some c ∧ c ∈ numerals ∧ c ∉ ['n', 'f'] := by
    have hdigits : ∀ n : Fin 10, n.val.digitChar ∉ ['n', 'f'] := by decide
    unfold unsignedText
    split
    · exact ⟨'i', by decide⟩
    · split
      · exact ⟨'0', by decide⟩
      · obtain ⟨n, hn, hhead⟩ := (x.shortest .up).head?_positional
        exact ⟨_, hhead, digitChar_mem_numerals hn, hdigits ⟨n, hn⟩⟩
  rcases hnan : x.isNaN with _ | _
  · rw [text_of_not_isNaN hnan, String.toList_append]
    unfold signText
    split
    · exact ⟨'-', rfl, by decide⟩
    · exact hunsigned
  · rw [text_of_isNaN hnan]
    exact ⟨'N', by decide⟩

theorem mem_numerals_of_mem_fixed {places : Nat} {c : Char} (h : c ∈ (x.fixed places).toList) : c ∈ numerals := by
  have hdigits : ∀ m n, ∀ c ∈ List.replicate m '0' ++ Nat.toDigits 10 n, c ∈ numerals := by
    intro m n c hc
    rcases List.mem_append.mp hc with hc | hc
    · rw [List.eq_of_mem_replicate hc]
      decide
    · obtain ⟨d, hd, rfl⟩ := Text.exists_digit_of_mem_toDigits (by decide) hc
      exact digitChar_mem_numerals hd
  unfold fixed at h
  split at h
  · have hsub : ∀ c ∈ "NaN".toList, c ∈ numerals := List.all_iff_forall_prop.mp (by decide)
    exact hsub c h
  · split at h
    · have hsub : ∀ c ∈ "inf".toList, c ∈ numerals := List.all_iff_forall_prop.mp (by decide)
      rw [String.toList_append] at h
      exact (List.mem_append.mp h).elim mem_numerals_of_mem_signText (hsub c)
    · dsimp only at h
      rw [String.toList_append, String.toList_ofList] at h
      rcases List.mem_append.mp h with h | h
      · exact mem_numerals_of_mem_signText h
      · rcases List.mem_append.mp h with h | h
        · rcases List.mem_append.mp h with h | h
          · exact hdigits _ _ c (List.mem_of_mem_take h)
          · split at h
            · simp at h
            · rw [List.mem_singleton.mp h]
              decide
        · exact hdigits _ _ c (List.mem_of_mem_drop h)

theorem notMem_marks_of_mem_numerals {c : Char} (h : c ∈ numerals) : c ∉ Text.marks := by
  have hall : ∀ c ∈ numerals, c ∉ Text.marks := List.all_iff_forall_prop.mp (by decide)
  exact hall c h

theorem quarters_pos {d : Decimal} (hx : x.isZero = false) (h : x.neighbourhood.Has (quarters d)) : 0 < quarters d := by
  obtain ⟨m, hm⟩ : ∃ m, x.magnitude = m + 1 := ⟨x.magnitude - 1, by simp [isZero] at hx; omega⟩
  have hlow : (0 : ℚ) < x.neighbourhood.low := by
    have := gapAt_pos m
    rw [low_neighbourhood hm]
    exact_mod_cast (by omega)
  exact hlow.trans_le h.le.1

/-- The zeros are written with the decimal zero. -/
theorem unsignedText_of_isZero (h : x.isZero = true) : x.unsignedText = (⟨0, 0⟩ : Decimal).positional := by
  have hm : x.magnitude = 0 := by simpa [isZero] using h
  have hinf : x.isInfinite = false := by
    rw [isInfinite, hm]
    decide
  simp only [unsignedText, hinf, h, if_true, Bool.false_eq_true, if_false]
  decide

theorem unsignedText_ne_of_isInfinite (hx : x.isInfinite = true) (hy : y.isInfinite = false) :
    x.unsignedText ≠ y.unsignedText := by
  intro h
  have hi : 'i' ∈ y.unsignedText.toList := by
    rw [← h]
    simp [unsignedText, hx]
  have hpositional : ∃ d : Decimal, y.unsignedText = d.positional := by
    rcases hz : y.isZero with _ | _
    · exact ⟨y.shortest .up, by simp [unsignedText, hy, hz]⟩
    · exact ⟨_, unsignedText_of_isZero hz⟩
  obtain ⟨d, hd⟩ := hpositional
  rcases Decimal.mem_positional (hd ▸ hi) with hpt | ⟨n, hn, hdigit⟩
  · exact absurd hpt (by decide)
  · have hall : ∀ n : Fin 10, 'i' ≠ n.val.digitChar := by decide
    exact hall ⟨n, hn⟩ hdigit

theorem magnitude_lt_of_finite (hnan : x.isNaN = false) (hinf : x.isInfinite = false) :
    x.magnitude < infiniteMagnitude := by
  simp only [isNaN, isInfinite, decide_eq_false_iff_not] at hnan hinf
  omega

theorem magnitude_eq_of_unsignedText_eq (hx : x.isNaN = false) (hy : y.isNaN = false)
    (h : x.unsignedText = y.unsignedText) : x.magnitude = y.magnitude := by
  rcases hxi : x.isInfinite with _ | _ <;> rcases hyi : y.isInfinite with _ | _
  · have hxf := magnitude_lt_of_finite hx hxi
    have hyf := magnitude_lt_of_finite hy hyi
    have hshortest : ∀ {x : Double}, x.isInfinite = false → x.isZero = false →
        x.unsignedText = (x.shortest .up).positional := fun hi hz => by simp [unsignedText, hi, hz]
    have hne : ∀ {x y : Double}, x.magnitude < infiniteMagnitude → x.isInfinite = false → x.isZero = false →
        y.isZero = true → x.unsignedText ≠ y.unsignedText := fun hf hi hz hyz heq => by
      rw [hshortest hi hz, unsignedText_of_isZero hyz] at heq
      have hpos := quarters_pos hz (shortest_mem .up hz hf)
      rw [quarters, Decimal.value_eq_of_positional_eq heq] at hpos
      simp [Decimal.value] at hpos
    rcases hxz : x.isZero with _ | _ <;> rcases hyz : y.isZero with _ | _
    · have hmem := shortest_mem .up hxz hxf
      have hvalue : (x.shortest .up).value = (y.shortest .up).value :=
        Decimal.value_eq_of_positional_eq (by rw [← hshortest hxi hxz, h, hshortest hyi hyz])
      rw [quarters, hvalue] at hmem
      exact hmem.magnitude_eq (shortest_mem .up hyz hyf)
    · exact absurd h (hne hxf hxi hxz hyz)
    · exact absurd h.symm (hne hyf hyi hyz hxz)
    · simp only [isZero, decide_eq_true_iff] at hxz hyz
      rw [hxz, hyz]
  · exact absurd h.symm (unsignedText_ne_of_isInfinite hyi hxi)
  · exact absurd h (unsignedText_ne_of_isInfinite hxi hyi)
  · simp only [isInfinite, decide_eq_true_iff] at hxi hyi
    rw [hxi, hyi]

theorem notMem_unsignedText {c : Char} (hc : c ∈ ['-', 'N']) : c ∉ x.unsignedText.toList := by
  intro h
  have hletters : ∀ c ∈ ['-', 'N'], c ∉ ['i', 'n', 'f', '.'] := List.all_iff_forall_prop.mp (by decide)
  have hdigits : ∀ c ∈ ['-', 'N'], ∀ n : Fin 10, c ≠ n.val.digitChar := List.all_iff_forall_prop.mp (by decide)
  rcases mem_unsignedText h with h | ⟨n, hn, hdigit⟩
  · exact hletters c hc h
  · exact hdigits c hc ⟨n, hn⟩ hdigit

theorem negative_eq_of_text_eq (h : x.signText ++ x.unsignedText = y.signText ++ y.unsignedText) :
    x.negative = y.negative ∧ x.unsignedText = y.unsignedText := by
  have hsigned : ∀ {x y : Double}, "-" ++ x.unsignedText ≠ "" ++ y.unsignedText := fun {x y} heq => by
    have hmem : '-' ∈ (y : Double).unsignedText.toList := by
      have hlist : '-' :: x.unsignedText.toList = y.unsignedText.toList := by simpa using congrArg String.toList heq
      rw [← hlist]
      exact List.mem_cons_self
    exact notMem_unsignedText (by decide) hmem
  unfold signText at h
  rcases hx : x.negative with _ | _ <;> rcases hy : y.negative with _ | _ <;>
    simp only [hx, hy, if_true, if_false, Bool.false_eq_true] at h
  · exact ⟨rfl, by simpa using h⟩
  · exact absurd h.symm hsigned
  · exact absurd h hsigned
  · exact ⟨rfl, by simpa using h⟩

/-- The text of a double shows all of it but which NaN it is. -/
theorem text_eq_iff : x.text = y.text ↔ x = y ∨ (x.isNaN = true ∧ y.isNaN = true) := by
  have hnan : ∀ {x y : Double}, x.isNaN = true → y.isNaN = false → x.text ≠ y.text := by
    intro x y hx hy heq
    rw [text_of_isNaN hx, text_of_not_isNaN hy] at heq
    have hmem : 'N' ∈ (y.signText ++ y.unsignedText).toList := by
      rw [← heq]
      decide
    rw [String.toList_append] at hmem
    rcases List.mem_append.mp hmem with hmem | hmem
    · unfold signText at hmem
      split at hmem <;> simp at hmem
    · exact notMem_unsignedText (by decide) hmem
  constructor
  · intro h
    rcases hx : x.isNaN with _ | _ <;> rcases hy : y.isNaN with _ | _
    · rw [text_of_not_isNaN hx, text_of_not_isNaN hy] at h
      obtain ⟨hneg, hunsigned⟩ := negative_eq_of_text_eq h
      exact .inl (eq_of_negative_of_magnitude hneg (magnitude_eq_of_unsignedText_eq hx hy hunsigned))
    · exact absurd h.symm (hnan hy hx)
    · exact absurd h (hnan hx hy)
    · exact .inr ⟨rfl, rfl⟩
  · rintro (rfl | ⟨hx, hy⟩)
    · rfl
    · rw [text_of_isNaN hx, text_of_isNaN hy]

end Double

end HyperQuery
