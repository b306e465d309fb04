import HyperQuery.Proofs.Condition.Distribution

/-!
# The shape of a normal form

A clause is a condition that is no combinator, or a conjunction of at least two such conditions, and a condition is
normal if it is a clause or a disjunction of at least two clauses. Rewriting ends for every condition, in one way and
in a normal condition; normal conditions are rewritten to themselves, so they are exactly what rewriting ends in
(`normal_iff_fixed`).
-/

namespace HyperQuery

namespace Condition

variable {c d : Condition} {arm : List Condition}

/-- A condition that is neither a conjunction nor a disjunction, or a conjunction of at least two such conditions. -/
inductive IsClause : Condition → Prop
  | leaf {l : Condition} : l.isCombinator = false → IsClause l
  | and {ls : List Condition} : 2 ≤ ls.length → (∀ l ∈ ls, l.isCombinator = false) → IsClause (.and ls)

/-- A clause, or a disjunction of at least two clauses. -/
inductive IsNormal : Condition → Prop
  | clause {c : Condition} : c.IsClause → IsNormal c
  | or {cs : List Condition} : 2 ≤ cs.length → (∀ c ∈ cs, c.IsClause) → IsNormal (.or cs)

theorem conjunction_of_two_le {cs : List Condition} (h : 2 ≤ cs.length) : conjunction cs = .and cs := by
  match cs, h with
  | _ :: _ :: _, _ => rfl

theorem disjunction_of_two_le {cs : List Condition} (h : 2 ≤ cs.length) : disjunction cs = .or cs := by
  match cs, h with
  | _ :: _ :: _, _ => rfl

/-! ### Normal forms are normal -/

/-- Each arm of a condition is a clause. -/
theorem isClause_conjunction_of_mem_arms (harm : arm ∈ c.arms) : (conjunction arm).IsClause := by
  have hleaves : ∀ l ∈ arm, l.isCombinator = false := fun l => isCombinator_of_mem_arm harm
  match arm, ne_nil_of_mem_arms harm with
  | [l], _ => exact .leaf (hleaves l (by simp))
  | l :: m :: rest, _ => exact .and (by simp) hleaves

theorem isNormal_toNormalForm (c : Condition) : c.toNormalForm.IsNormal := by
  have hclauses : ∀ d ∈ c.arms.map conjunction, d.IsClause := by
    intro d hd
    obtain ⟨arm, harm, rfl⟩ := List.mem_map.mp hd
    exact isClause_conjunction_of_mem_arms harm
  obtain ⟨l, -, hc, hl⟩ | ⟨arm, harms, hc, harm⟩ | ⟨hlength, hc⟩ := toNormalForm_cases c
  · rw [hc]
    exact .clause (.leaf hl)
  · rw [hc, ← harm]
    exact .clause (hclauses _ (by simp [harms]))
  · rw [hc]
    exact .or (by simpa using hlength) hclauses

/-! ### Normal conditions are their own normal forms -/

/-- A clause has one arm, and is the conjunction of it. -/
theorem IsClause.arms_eq (h : c.IsClause) : c.arms.map conjunction = [c] := by
  cases h with
  | leaf hl =>
    rw [arms_of_not_isCombinator hl]
    rfl
  | @and ls hlength hls =>
    have hand := conjunction_of_two_le hlength
    have hne : ls ≠ [] := List.ne_nil_of_length_pos (by omega)
    rw [← hand, arms_conjunction hls hne]
    rfl

theorem IsNormal.toNormalForm_eq (h : c.IsNormal) : c.toNormalForm = c := by
  cases h with
  | clause hc =>
    rw [toNormalForm, hc.arms_eq]
    rfl
  | @or cs hlength hcs =>
    have hmap : (cs.map fun c => c.arms.map conjunction) = cs.map fun c => [c] :=
      List.map_congr_left fun c hc => (hcs c hc).arms_eq
    rw [toNormalForm_or, List.flatMap_def, hmap, ← List.flatMap_def, List.flatMap_singleton']
    exact disjunction_of_two_le hlength

/-- Rewriting a condition ends, in one way and in a normal condition, and rewriting that once more changes nothing. The
normal conditions are those that are rewritten to themselves, and those that anything is rewritten to. -/
theorem normal_iff_fixed (c d : Condition) :
    (∃ e, MultipliesTo c e) ∧ (MultipliesTo c d ↔ d = c.toNormalForm) ∧ c.toNormalForm.IsNormal ∧
      c.toNormalForm.toNormalForm = c.toNormalForm ∧
      (d.IsNormal ↔ d.toNormalForm = d) ∧ (d.IsNormal ↔ ∃ e : Condition, e.toNormalForm = d) := by
  refine ⟨exists_multipliesTo c, multipliesTo_iff, isNormal_toNormalForm c,
    (isNormal_toNormalForm c).toNormalForm_eq, ⟨?fixed, ?normal⟩, ⟨?image, ?shape⟩⟩
  case fixed => exact IsNormal.toNormalForm_eq
  case normal =>
    intro h
    exact h ▸ isNormal_toNormalForm d
  case image => exact fun h => ⟨d, h.toNormalForm_eq⟩
  case shape =>
    rintro ⟨e, rfl⟩
    exact isNormal_toNormalForm e

end Condition

end HyperQuery
