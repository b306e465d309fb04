import HyperQuery.Value.Basic

/-!
# Laws of the order of values

`Value.compare` is a total order whose equality is the identity of values: two values compare equal only if they are
the same, doubles bit by bit (`Value.compare_eq_iff`), exchanging the sides exchanges the answer
(`Value.compare_swap`), and `Value.compare_lt_trans` chains strict comparisons. The three are stated together for
values and for lists of record fields, since a record compares field by field. The instances hand them to the lemmas on
ordered keys, and `Value.compare_laws` states the laws of the order in full.
-/

namespace HyperQuery

namespace Double

/-- The key of the total order determines the bits. -/
theorem totalKey_inj {x y : Double} (h : x.totalKey = y.totalKey) : x = y := by
  have hx := x.bits.toNat_lt
  have hy := y.bits.toNat_lt
  unfold totalKey negative magnitude signWeight at h
  have hbits : x.bits.toNat = y.bits.toNat := by
    simp only [decide_eq_true_eq] at h
    split at h <;> split at h <;> omega
  cases x; cases y
  exact congrArg Double.mk (UInt64.toNat_inj.mp hbits)

theorem totalCompare_swap {x y : Double} : x.totalCompare y = (y.totalCompare x).swap :=
  Std.OrientedOrd.eq_swap (α := Int)

instance : Std.OrientedCmp totalCompare where
  eq_swap := totalCompare_swap

instance : Std.TransCmp totalCompare where
  isLE_trans := Std.TransOrd.isLE_trans (α := Int)

instance : Std.LawfulEqCmp totalCompare where
  compare_self := Std.ReflOrd.compare_self (α := Int)
  eq_of_compare h := totalKey_inj (Std.LawfulEqOrd.eq_of_compare (α := Int) h)

end Double

namespace Value

/-- Values of different kinds compare by their kinds. -/
theorem compare_of_kindRank_ne {a b : Value} (h : a.kindRank ≠ b.kindRank) :
    a.compare b = Ord.compare a.kindRank b.kindRank := by
  cases a <;> cases b <;> first | rfl | exact absurd rfl h

theorem kindRank_eq_of_compare_eq {a b : Value} (h : a.compare b = .eq) : a.kindRank = b.kindRank := by
  by_cases hk : a.kindRank = b.kindRank
  · exact hk
  · rw [compare_of_kindRank_ne hk] at h
    exact absurd (Std.LawfulEqOrd.eq_of_compare h) hk

/-! ### Equality -/

mutual

theorem compare_self : (a : Value) → a.compare a = .eq
  | .null => by simp [compare]
  | .bool _ => by simp [compare]
  | .int _ => by simp [compare]
  | .float _ => by simp [compare, Std.ReflCmp.compare_self]
  | .string _ => by simp [compare]
  | .bytes _ => by simp [compare]
  | .record fields => by
    simp only [compare]
    exact compareFields_self fields

theorem compareFields_self : (a : List (String × Value)) → compareFields a a = .eq
  | [] => by simp [compareFields]
  | (_, v) :: rest => by simp [compareFields, compare_self v, compareFields_self rest, Ordering.then]

end

mutual

theorem eq_of_compare (a b : Value) (h : a.compare b = .eq) : a = b := by
  have hk := kindRank_eq_of_compare_eq h
  match a, b, hk with
  | .null, .null, _ => rfl
  | .bool _, .bool _, _ => simp only [compare] at h; rw [Std.LawfulEqOrd.eq_of_compare h]
  | .int _, .int _, _ => simp only [compare] at h; rw [Std.LawfulEqOrd.eq_of_compare h]
  | .float _, .float _, _ =>
    simp only [compare] at h
    rw [Std.LawfulEqCmp.eq_of_compare h]
  | .string _, .string _, _ => simp only [compare] at h; rw [Std.LawfulEqOrd.eq_of_compare h]
  | .bytes _, .bytes _, _ => simp only [compare] at h; rw [Std.LawfulEqOrd.eq_of_compare h]
  | .record x, .record y, _ =>
    simp only [compare] at h
    rw [eq_of_compareFields x y h]

theorem eq_of_compareFields : (a b : List (String × Value)) → compareFields a b = .eq → a = b
  | [], [], _ => rfl
  | [], _ :: _, h => by simp [compareFields] at h
  | _ :: _, [], h => by simp [compareFields] at h
  | (k, v) :: a, (l, w) :: b, h => by
    simp only [compareFields, Ordering.then_eq_eq] at h
    rw [Std.LawfulEqOrd.eq_of_compare h.1, eq_of_compare v w h.2.1, eq_of_compareFields a b h.2.2]

end

/-! ### Exchanging the sides -/

mutual

theorem compare_swap (a b : Value) : a.compare b = (b.compare a).swap := by
  by_cases hk : a.kindRank = b.kindRank
  · match a, b, hk with
    | .null, .null, _ => rfl
    | .bool _, .bool _, _ => exact Std.OrientedOrd.eq_swap
    | .int _, .int _, _ => exact Std.OrientedOrd.eq_swap
    | .float _, .float _, _ => exact Double.totalCompare_swap
    | .string _, .string _, _ => exact Std.OrientedOrd.eq_swap
    | .bytes _, .bytes _, _ => exact Std.OrientedOrd.eq_swap
    | .record x, .record y, _ =>
      simp only [compare]
      exact compareFields_swap x y
  · rw [compare_of_kindRank_ne hk, compare_of_kindRank_ne (Ne.symm hk)]
    exact Std.OrientedOrd.eq_swap

theorem compareFields_swap : (a b : List (String × Value)) → compareFields a b = (compareFields b a).swap
  | [], [] => rfl
  | [], _ :: _ => rfl
  | _ :: _, [] => rfl
  | (k, v) :: a, (l, w) :: b => by
    simp only [compareFields, Ordering.swap_then]
    rw [← compare_swap v w, ← compareFields_swap a b, ← Std.OrientedOrd.eq_swap]

end

/-! ### Chaining -/

/-- A smaller value is of a smaller kind or of the same one. -/
theorem kindRank_le_of_compare_lt {a b : Value} (h : a.compare b = .lt) : a.kindRank ≤ b.kindRank := by
  by_cases hk : a.kindRank = b.kindRank
  · exact Nat.le_of_eq hk
  · rw [compare_of_kindRank_ne hk] at h
    exact Nat.le_of_lt (Nat.compare_eq_lt.mp h)

mutual

theorem compare_lt_trans (a b c : Value) (hab : a.compare b = .lt) (hbc : b.compare c = .lt) :
    a.compare c = .lt := by
  have h1 := kindRank_le_of_compare_lt hab
  have h2 := kindRank_le_of_compare_lt hbc
  by_cases hac : a.kindRank = c.kindRank
  · have hk : a.kindRank = b.kindRank := by omega
    have hl : b.kindRank = c.kindRank := by omega
    match a, b, c, hk, hl with
    | .null, .null, .null, _, _ => simp [compare] at hab
    | .bool _, .bool _, .bool _, _, _ => simp only [compare] at hab hbc ⊢; exact Std.TransCmp.lt_trans hab hbc
    | .int _, .int _, .int _, _, _ => simp only [compare] at hab hbc ⊢; exact Std.TransCmp.lt_trans hab hbc
    | .float _, .float _, .float _, _, _ => simp only [compare] at hab hbc ⊢; exact Std.TransCmp.lt_trans hab hbc
    | .string _, .string _, .string _, _, _ => simp only [compare] at hab hbc ⊢; exact Std.TransCmp.lt_trans hab hbc
    | .bytes _, .bytes _, .bytes _, _, _ => simp only [compare] at hab hbc ⊢; exact Std.TransCmp.lt_trans hab hbc
    | .record x, .record y, .record z, _, _ =>
      simp only [compare] at hab hbc ⊢
      exact compareFields_lt_trans x y z hab hbc
  · rw [compare_of_kindRank_ne hac]
    exact Nat.compare_eq_lt.mpr (by omega)

theorem compareFields_lt_trans : (a b c : List (String × Value)) → compareFields a b = .lt →
    compareFields b c = .lt → compareFields a c = .lt
  | _, [], [], _, h => by simp [compareFields] at h
  | [], _ :: _, [], _, h => by simp [compareFields] at h
  | [], _, _ :: _, _, _ => rfl
  | _ :: _, [], _, h, _ => by simp [compareFields] at h
  | _ :: _, _ :: _, [], _, h => by simp [compareFields] at h
  | (k, v) :: a, (l, w) :: b, (m, x) :: c, hab, hbc => by
    simp only [compareFields, Ordering.then_eq_lt] at hab hbc ⊢
    -- an equality at the front identifies the fronts, so only strict comparisons have to be chained
    rcases hab with hkl | ⟨hkl, hab⟩
    · rcases hbc with hlm | ⟨hlm, -⟩
      · exact .inl (Std.TransCmp.lt_trans hkl hlm)
      · rw [← Std.LawfulEqOrd.eq_of_compare hlm]
        exact .inl hkl
    · have hk := Std.LawfulEqOrd.eq_of_compare hkl
      subst hk
      rcases hbc with hlm | ⟨hlm, hbc⟩
      · exact .inl hlm
      · refine .inr ⟨hlm, ?_⟩
        rcases hab with hvw | ⟨hvw, hab⟩
        · rcases hbc with hwx | ⟨hwx, -⟩
          · exact .inl (compare_lt_trans v w x hvw hwx)
          · rw [← eq_of_compare w x hwx]
            exact .inl hvw
        · rw [eq_of_compare v w hvw]
          rcases hbc with hwx | ⟨hwx, hbc⟩
          · exact .inl hwx
          · exact .inr ⟨hwx, compareFields_lt_trans a b c hab hbc⟩

end

/-! ### The order of keys -/

theorem compare_eq_iff {a b : Value} : a.compare b = .eq ↔ a = b :=
  ⟨eq_of_compare a b, fun h => h ▸ compare_self a⟩

instance : Std.OrientedOrd Value where
  eq_swap := compare_swap _ _

instance : Std.TransOrd Value where
  isLE_trans {a b c} hab hbc := by
    rw [Ordering.isLE_iff_eq_lt_or_eq_eq] at hab hbc ⊢
    rcases hab with hab | hab
    · rcases hbc with hbc | hbc
      · exact .inl (compare_lt_trans a b c hab hbc)
      · rw [← eq_of_compare b c hbc]
        exact .inl hab
    · rw [eq_of_compare a b hab]
      exact hbc

instance : Std.LawfulEqOrd Value where
  compare_self := compare_self _
  eq_of_compare := eq_of_compare _ _

instance : LawfulBEq Value where
  rfl {a} := by
    show (a.compare a == .eq) = true
    rw [compare_self]
    rfl
  eq_of_beq {a b} h := eq_of_compare a b (eq_of_beq (α := Ordering) h)

/-! ### The laws together -/

/-- Doubles are equal keys only with the same bits. -/
theorem compare_float_eq_iff {x y : Double} : (float x).compare (float y) = .eq ↔ x.bits = y.bits := by
  rw [compare_eq_iff, float.injEq]
  exact ⟨congrArg Double.bits, fun h => by cases x; cases y; exact congrArg Double.mk h⟩

/-- The smaller kind comes first. -/
theorem compare_of_kindRank_lt {a b : Value} (h : a.kindRank < b.kindRank) : a.compare b = .lt := by
  rw [compare_of_kindRank_ne (Nat.ne_of_lt h)]
  exact Nat.compare_eq_lt.mpr h

theorem isLE_compare_total (a b : Value) : (a.compare b).isLE = true ∨ (b.compare a).isLE = true := by
  rw [compare_swap b a]
  cases a.compare b <;> decide

theorem isLE_compare_both_iff {a b : Value} :
    (a.compare b).isLE = true ∧ (b.compare a).isLE = true ↔ a.compare b = .eq := by
  rw [compare_swap b a]
  cases a.compare b <;> decide

/-- `Value.compare` is a total order: it is reflexive, antisymmetric, transitive and total, and exchanging the sides
exchanges the answer. Only a value itself compares equal to it, doubles bit by bit, and of two kinds the smaller comes
first. -/
theorem compare_laws (a b c : Value) :
    a.compare a = .eq ∧
    ((a.compare b).isLE = true ∧ (b.compare a).isLE = true ↔ a.compare b = .eq) ∧
    ((a.compare b).isLE = true → (b.compare c).isLE = true → (a.compare c).isLE = true) ∧
    ((a.compare b).isLE = true ∨ (b.compare a).isLE = true) ∧
    a.compare b = (b.compare a).swap ∧
    (a.compare b = .eq ↔ a = b) ∧
    (∀ x y : Double, (float x).compare (float y) = .eq ↔ x.bits = y.bits) ∧
    (a.kindRank < b.kindRank → a.compare b = .lt) :=
  ⟨compare_self a, isLE_compare_both_iff, Std.TransOrd.isLE_trans (α := Value), isLE_compare_total a b,
    compare_swap a b, compare_eq_iff, fun _ _ => compare_float_eq_iff, compare_of_kindRank_lt⟩

/-- Records that differ in the kind of a field, and one level deeper in the payload of a NaN. -/
theorem compare_laws_nested :
    let a : Value := .record [("x", .float ⟨0x8000000000000000⟩)]
    let b : Value := .record [("x", .record [("y", .float ⟨0x7ff8000000000000⟩)])]
    let c : Value := .record [("x", .record [("y", .float ⟨0x7ff8000000000001⟩)])]
    ((a.compare b).isLE = true ∧ (b.compare c).isLE = true ∧ (a.compare c).isLE = true) ∧
      (Value.int 3).kindRank < c.kindRank ∧ (Value.int 3).compare c = .lt := by
  intro a b c
  have hab : (a.compare b).isLE = true := rfl
  have hbc : (b.compare c).isLE = true := rfl
  have hkind : (Value.int 3).kindRank < c.kindRank := by decide
  obtain ⟨-, -, htrans, -⟩ := compare_laws a b c
  obtain ⟨-, -, -, -, -, -, -, hlt⟩ := compare_laws (.int 3) c c
  exact ⟨⟨hab, hbc, htrans hab hbc⟩, hkind, hlt hkind⟩

end Value

end HyperQuery
