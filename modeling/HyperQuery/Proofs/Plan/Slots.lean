import HyperQuery.Proofs.Plan.Prepare

/-!
# The slots of an alternative

The conjuncts of an alternative are sorted in one after the other. The slots only grow on the way (`Conjunction.Grows`), so
that every conjunct is found where it was put when the slots are written out (`Condition.exists_sortsIn_of_mem`,
`Condition.leaves_of_toCondition`).
-/

namespace HyperQuery

/-! ### Slots grow -/

namespace Conjunction

variable {s : Store} {k k' k'' : Conjunction} {c : Condition}

/-- Every slot of the conjunction is the beginning of that slot of the other. -/
structure Grows (k k' : Conjunction) : Prop where
  types : k.types <+: k'.types
  values : k.values <+: k'.values
  others : k.others <+: k'.others

theorem Grows.refl : Grows k k := ⟨List.prefix_refl _, List.prefix_refl _, List.prefix_refl _⟩

theorem Grows.trans (h : Grows k k') (h' : Grows k' k'') : Grows k k'' :=
  ⟨h.types.trans h'.types, h.values.trans h'.values, h.others.trans h'.others⟩

private theorem prefix_addNew {α : Type} [BEq α] {x : α} {xs : List α} : xs <+: addNew x xs := by
  unfold addNew
  split
  · exact List.prefix_refl _
  · exact List.prefix_append _ _

theorem grows_of_sortsIn (h : SortsIn s k c (some k')) : Grows k k' := by
  cases h with
  | any => exact .refl
  | type _ => exact ⟨prefix_addNew, List.prefix_refl _, List.prefix_refl _⟩
  | typedValue _ _ | defaultTyped _ _ => exact ⟨prefix_addNew, prefix_addNew, List.prefix_refl _⟩
  | untyped _ _ => exact ⟨List.prefix_refl _, prefix_addNew, List.prefix_refl _⟩
  | part => exact ⟨List.prefix_refl _, List.prefix_refl _, List.prefix_refl _⟩
  | other => exact ⟨List.prefix_refl _, List.prefix_refl _, prefix_addNew⟩

private theorem anyConflict_append {xs ys : List Constraint} (h : anyConflict xs = true) : anyConflict (xs ++ ys) = true := by
  induction xs with
  | nil => simp [anyConflict] at h
  | cons x xs ih =>
    rw [anyConflict, Bool.or_eq_true] at h
    rw [List.cons_append, anyConflict, Bool.or_eq_true, List.any_append, Bool.or_eq_true]
    exact h.imp .inl ih

/-- A contradiction stays one. -/
theorem Grows.isContradictory (h : Grows k k') (hk : k.isContradictory = true) : k'.isContradictory = true := by
  simp only [Conjunction.isContradictory, Bool.or_eq_true, decide_eq_true_eq] at hk ⊢
  refine hk.imp (fun hlen => Nat.lt_of_lt_of_le hlen h.types.length_le) fun hconflict => ?_
  obtain ⟨more, hmore⟩ := h.values
  rw [← hmore]
  exact anyConflict_append hconflict

/-- Without a contradiction at most one type is required. -/
theorem types_eq_of_mem {ty : AtomId} (h : k.isContradictory = false) (hty : ty ∈ k.types) : k.types = [ty] := by
  simp only [isContradictory, Bool.or_eq_false_iff, decide_eq_false_iff_not] at h
  rcases htypes : k.types with _ | ⟨ty', _ | ⟨ty'', rest⟩⟩
  · rw [htypes] at hty
    cases hty
  · rw [htypes, List.mem_singleton] at hty
    rw [hty]
  · simp [htypes] at h

/-- Comparisons of values are written out bound to the type, if one is required. -/
theorem typedValue_mem_coreConditions {ty : AtomId} {v : Constraint} {first : List Condition} (htypes : k.types = [ty])
    (hv : v ∈ k.values) (hfirst : k.typeAndValues s (k.indexedParts s) = .ok first) :
    .typedValue (.handle ty) v.literal v.op ∈ k.coreConditions s first := by
  refine mem_coreConditions.mpr (.inl ?_)
  rcases typeAndValues_cases hfirst with ⟨hnil, -⟩ | ⟨ty', rest, hty, -, rfl⟩ | ⟨_, _, -, hnil, -⟩
  · rw [htypes] at hnil
    cases hnil
  · rw [htypes] at hty
    cases hty
    exact List.mem_map.mpr ⟨v, hv, rfl⟩
  · rw [hnil] at hv
    cases hv

end Conjunction

/-! ### Sorting in the conjuncts -/

namespace Condition

variable {s : Store} {k k' : Conjunction} {c d u : Condition} {cs us : List Condition}

theorem grows_of_absorbAll (hu : ∀ u ∈ us, u.isCombinator = false) (h : absorbAll s k us = .ok (some k')) : k.Grows k' := by
  induction us generalizing k with
  | nil =>
    cases h
    exact .refl
  | cons u us ih =>
    rcases absorbAll_cons_cases h with ⟨-, hr⟩ | ⟨k₁, hk₁, h⟩
    · simp at hr
    · exact (Conjunction.grows_of_sortsIn (sortsIn_of_absorb (hu u (by simp)) hk₁)).trans
        (ih (fun v hv => hu v (by simp [hv])) h)

/-- Every conjunct is sorted in on the way. -/
theorem exists_sortsIn_of_mem (hu : ∀ u ∈ us, u.isCombinator = false) (h : absorbAll s k us = .ok (some k'))
    (hmem : u ∈ us) : ∃ k₁ k₂, Conjunction.SortsIn s k₁ u (some k₂) ∧ k₂.Grows k' := by
  induction us generalizing k with
  | nil => simp at hmem
  | cons v us ih =>
    rcases absorbAll_cons_cases h with ⟨-, hr⟩ | ⟨k₁, hk₁, hrest⟩
    · simp at hr
    · have hus : ∀ v ∈ us, v.isCombinator = false := fun v hv => hu v (by simp [hv])
      rcases List.mem_cons.mp hmem with rfl | hmem
      · exact ⟨k, k₁, sortsIn_of_absorb (hu u (by simp)) hk₁, grows_of_absorbAll hus hrest⟩
      · exact ih hus hrest hmem

/-! ### Writing the slots out -/

private theorem leaves_conjunction (hleaf : ∀ l ∈ cs, l.isCombinator = false) (hne : cs ≠ []) :
    (conjunction cs).leaves = cs := by
  match cs, hleaf, hne with
  | [l], hleaf, _ => exact leaves_of_not_isCombinator (hleaf l (by simp))
  | _ :: _ :: _, hleaf, _ => exact leaves_and hleaf

/-- The leaves of a conjunction as written out. -/
theorem leaves_of_toCondition (hothers : ∀ l ∈ k.others, l.isCombinator = false) (h : k.toCondition s = .ok d) :
    ∃ first, k.typeAndValues s (k.indexedParts s) = .ok first ∧
      (d.leaves = k.coreConditions s first ++ k.others ∨ d = .any ∧ k.coreConditions s first ++ k.others = []) := by
  obtain ⟨first, hfirst, h⟩ := bind_eq_ok_iff.mp h
  refine ⟨first, hfirst, ?_⟩
  cases h
  change (conjunction (k.coreConditions s first ++ k.others)).leaves = _ ∨
    conjunction (k.coreConditions s first ++ k.others) = .any ∧ _
  have hleaf : ∀ l ∈ k.coreConditions s first ++ k.others, l.isCombinator = false := fun l hl =>
    (List.mem_append.mp hl).elim (fun hl => isCombinator_of_coreCondition (Conjunction.coreCondition_of_mem hfirst hl))
      (hothers l)
  by_cases hnil : k.coreConditions s first ++ k.others = []
  · exact .inr ⟨by rw [hnil]; rfl, hnil⟩
  · exact .inl (leaves_conjunction hleaf hnil)

section Alternative

variable {arm : List Condition} (harm : ∀ l ∈ arm, l.isCombinator = false)

include harm

theorem others_of_absorbAll (h : absorbAll s .empty arm = .ok (some k)) : ∀ l ∈ k.others, l ∈ arm := fun l hl =>
  (mem_of_mem_others harm h hl).resolve_left (by simp [Conjunction.empty])

/-- The slots of several conjuncts are written out as the simplified conjunction, unless they contradict each other. -/
theorem toCondition_of_simplify (hc : simplify s (.and arm) = .ok c) (hk : absorbAll s .empty arm = .ok (some k))
    (hcontra : k.isContradictory = false) : k.toCondition s = .ok c := by
  rcases simplify_and_cases hc with ⟨hnone, -⟩ | ⟨k', hk', h⟩
  · rw [conjunctsOf_leaves harm, hk] at hnone
    cases hnone
  · rw [conjunctsOf_leaves harm, hk] at hk'
    cases hk'
    rcases h with ⟨hcontra', -⟩ | ⟨-, h⟩
    · rw [hcontra] at hcontra'
      cases hcontra'
    · exact h

/-- What something may match yet is written out from slots that do not contradict each other: its leaves are those that the
slots are written out as, and `any` if there are none. -/
theorem exists_slots_of_simplify (hc : simplify s (.and arm) = .ok c) (hne : c ≠ .nothing) :
    ∃ k first, absorbAll s .empty arm = .ok (some k) ∧ k.isContradictory = false ∧
      k.typeAndValues s (k.indexedParts s) = .ok first ∧ ∀ l ∈ k.coreConditions s first ++ k.others, l ∈ c.leaves := by
  rcases simplify_and_cases hc with ⟨-, hnothing⟩ | ⟨k, hk, ⟨-, hnothing⟩ | ⟨hcontra, h⟩⟩
  · exact absurd hnothing hne
  · exact absurd hnothing hne
  rw [conjunctsOf_leaves harm] at hk
  have hothers := others_of_absorbAll harm hk
  obtain ⟨first, hfirst, hleaves⟩ := leaves_of_toCondition (fun l hl => harm l (hothers l hl)) h
  refine ⟨k, first, hk, hcontra, hfirst, fun l hl => ?_⟩
  rcases hleaves with hleaves | ⟨-, hnil⟩
  · rwa [hleaves]
  · rw [hnil] at hl
    cases hl

end Alternative

end Condition

end HyperQuery
