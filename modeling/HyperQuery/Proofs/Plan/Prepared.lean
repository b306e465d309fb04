import HyperQuery.Proofs.Plan.NormalForm
import HyperQuery.Proofs.Plan.Prepare

/-!
# The shape of prepared conditions

Planning takes the conjuncts of a prepared condition one by one and relies on what simplification has settled between
them: they are at least two, none of them is trivial, the types they name are one type by its handle, and no comparison
of values is left without a type where one is named (`Condition.ConjunctsFit`). All conjunctions of a prepared condition
are of this shape, and its disjunctions have at least two arms, none of them empty (`shape_of_simplify_toNormalForm`).

What conjuncts have to do with each other goes through the type that the conjunction requires: each of them fits that
type (`Condition.Fits`). The slots for types and values are written out with the required type everywhere, or without a
type if none is required, and what is kept besides fits every type.
-/

namespace HyperQuery

namespace Condition

variable {c d u : Condition} {cs ds : List Condition}

/-! ### Conjunctions and disjunctions in a condition -/

mutual

/-- The condition and the conditions it is made of; negations and mappings are not entered. -/
def nodes : Condition → List Condition
  | .and conjuncts => .and conjuncts :: nodesOf conjuncts
  | .or arms => .or arms :: nodesOf arms
  | leaf => [leaf]

/-- The nodes of the conditions of a list. -/
def nodesOf : List Condition → List Condition
  | [] => []
  | c :: rest => nodes c ++ nodesOf rest

end

theorem mem_nodesOf : u ∈ nodesOf cs ↔ ∃ c ∈ cs, u ∈ c.nodes := by
  induction cs with
  | nil => simp [nodesOf]
  | cons c rest ih => simp [nodesOf, ih]

theorem nodes_of_not_isCombinator (h : c.isCombinator = false) : c.nodes = [c] := by
  cases c <;> first | rfl | simp [isCombinator] at h

private theorem mem_nodes_of_isArm (harm : d.isArm = true) (hu : u ∈ d.nodes) : u = d ∨ u.isCombinator = false := by
  rcases isArm_cases harm with hleaf | ⟨ls, rfl, hls⟩
  · rw [nodes_of_not_isCombinator hleaf, List.mem_singleton] at hu
    exact .inl hu
  · rcases List.mem_cons.mp hu with hu | hu
    · exact .inl hu
    · obtain ⟨l, hl, hu⟩ := mem_nodesOf.mp hu
      rw [nodes_of_not_isCombinator (hls l hl), List.mem_singleton] at hu
      exact .inr (hu ▸ hls l hl)

private theorem isNormalForm_cases (h : d.isNormalForm = true) :
    d.isArm = true ∨ ∃ arms, d = .or arms ∧ ∀ arm ∈ arms, arm.isArm = true := by
  cases d with
  | or arms => exact .inr ⟨arms, rfl, List.all_eq_true.mp h⟩
  | _ => exact .inl h

/-- A conjunction in a normal form is one of its alternatives. -/
theorem and_mem_alternatives (hd : d.isNormalForm = true) (h : .and cs ∈ d.nodes) : .and cs ∈ d.alternatives := by
  rcases isNormalForm_cases hd with harm | ⟨arms, rfl, harms⟩
  · rcases mem_nodes_of_isArm harm h with h | hleaf
    · rw [alternatives_of_isArm harm]
      exact List.mem_singleton.mpr h
    · simp [isCombinator] at hleaf
  · obtain ⟨arm, harm, h⟩ := mem_nodesOf.mp ((List.mem_cons.mp h).resolve_left (by simp))
    rcases mem_nodes_of_isArm (harms arm harm) h with rfl | hleaf
    · exact harm
    · simp [isCombinator] at hleaf

/-- The only disjunction in a normal form is the normal form itself. -/
theorem eq_or_of_mem_nodes (hd : d.isNormalForm = true) (h : .or cs ∈ d.nodes) : d = .or cs := by
  rcases isNormalForm_cases hd with harm | ⟨arms, rfl, harms⟩
  · rcases mem_nodes_of_isArm harm h with h | hleaf
    · exact h.symm
    · simp [isCombinator] at hleaf
  · rcases List.mem_cons.mp h with h | h
    · exact h.symm
    · obtain ⟨arm, harm, h⟩ := mem_nodesOf.mp h
      rcases mem_nodes_of_isArm (harms arm harm) h with rfl | hleaf
      · simpa [isArm, isCombinator] using harms _ harm
      · simp [isCombinator] at hleaf

/-! ### What conjuncts say about the type -/

/-- The type that a conjunct names, by itself or for a comparison of values. Searches by null name none, as they are
refused. -/
def namedType? : Condition → Option TypeRef
  | .ofType ty => some ty
  | .typedValue ty literal _ => if literal.isNull then none else some ty
  | _ => none

/-- Whether the condition compares values without naming a type. -/
def comparesUntyped : Condition → Bool
  | .value literal _ => !literal.isNull
  | _ => false

/-- The conjuncts of a conjunction fit each other: there are several, none is trivial, and they agree on the type. -/
structure ConjunctsFit (cs : List Condition) : Prop where
  several : 2 ≤ cs.length
  any_notMem : .any ∉ cs
  nothing_notMem : .nothing ∉ cs
  /-- All types that are named are one type, by its handle. -/
  oneType : ∃ id : AtomId, ∀ c ∈ cs, ∀ ty, c.namedType? = some ty → ty = .handle id
  /-- No comparison of values lacks the type if one is named. -/
  typed : (∃ c ∈ cs, c.namedType? ≠ none) → ∀ c ∈ cs, c.comparesUntyped = false

/-- The conjunct is not trivial and fits a conjunction that requires the given type, or none. -/
structure Fits (required : Option AtomId) (c : Condition) : Prop where
  ne_any : c ≠ .any
  ne_nothing : c ≠ .nothing
  named : ∀ ty, c.namedType? = some ty → ∃ id, required = some id ∧ ty = .handle id
  untyped : c.comparesUntyped = true → required = none

variable {required : Option AtomId}

/-- Several conjuncts fit each other if they fit the same type. -/
theorem conjunctsFit_of_fits (hlength : 2 ≤ cs.length) (h : ∀ c ∈ cs, c.Fits required) : ConjunctsFit cs := by
  refine ⟨hlength, fun hany => (h _ hany).ne_any rfl, fun hnothing => (h _ hnothing).ne_nothing rfl, ?oneType, ?typed⟩
  case oneType =>
    refine ⟨required.getD 0, fun c hc ty hty => ?_⟩
    obtain ⟨id, rfl, rfl⟩ := (h c hc).named ty hty
    rfl
  case typed =>
    rintro ⟨d, hd, hne⟩ c hc
    obtain ⟨ty, hty⟩ := Option.ne_none_iff_exists'.mp hne
    obtain ⟨id, rfl, -⟩ := (h d hd).named ty hty
    refine Bool.eq_false_iff.mpr fun hvalue => ?_
    simpa using (h c hc).untyped hvalue

/-- A conjunct that neither names a type nor compares values without one fits every type. -/
theorem fits_of_untyped (hany : c ≠ .any) (hnothing : c ≠ .nothing) (hnamed : c.namedType? = none)
    (huntyped : c.comparesUntyped = false) : c.Fits required :=
  ⟨hany, hnothing, by simp [hnamed], by simp [huntyped]⟩

/-- Conditions that are no combinators make a conjunction only if there are several of them. -/
theorem conjunction_eq_and (hleaf : ∀ c ∈ cs, c.isCombinator = false) (h : conjunction cs = .and ds) :
    ds = cs ∧ 2 ≤ cs.length := by
  match cs, hleaf, h with
  | [], _, h => cases h
  | [c], hleaf, h => exact absurd h (ne_and_of_not_isCombinator (hleaf c (by simp)) ds)
  | _ :: _ :: _, _, h =>
    cases h
    exact ⟨rfl, by simp⟩

end Condition

/-! ### Slots -/

namespace Conjunction

open Condition

variable {s : Store} {k k' : Conjunction} {c : Condition} {cs us first : List Condition}

/-- Sorting in a condition leaves the others as they are, or adds the condition itself if it fits every type. -/
theorem others_of_addLeaf (h : k.addLeaf s c = .ok (some k')) :
    k'.others = k.others ∨ (k' = k.addOther c ∧ ∀ required, c.Fits required) := by
  cases c with
  | nothing => cases h
  | any =>
    cases h
    exact .inl rfl
  | ofType ty =>
    obtain ⟨id, -, h⟩ := bind_eq_ok_iff.mp h
    cases h
    exact .inl rfl
  | typedValue ty literal op =>
    simp only [addLeaf] at h
    split at h
    · rename_i hnull
      cases h
      exact .inr ⟨rfl, fun _ => fits_of_untyped (by simp) (by simp) (by simp [namedType?, hnull]) rfl⟩
    · obtain ⟨id, -, h⟩ := bind_eq_ok_iff.mp h
      cases h
      exact .inl rfl
  | value literal op =>
    simp only [addLeaf] at h
    split at h
    · rename_i hnull
      cases h
      exact .inr ⟨rfl, fun _ => fits_of_untyped (by simp) (by simp) rfl (by simp [comparesUntyped, hnull])⟩
    · cases h
      left
      split <;> rfl
  | part path literal op =>
    cases h
    exact .inl rfl
  | _ =>
    cases h
    exact .inr ⟨rfl, fun _ => fits_of_untyped (by simp) (by simp) rfl rfl⟩

/-- Sorting in conditions one after the other, the others keep fitting every type. -/
theorem fits_of_mem_others (hleaf : ∀ u ∈ us, u.isCombinator = false)
    (hk : ∀ c ∈ k.others, ∀ required, c.Fits required) (h : absorbAll s k us = .ok (some k')) :
    ∀ c ∈ k'.others, ∀ required, c.Fits required := by
  induction us generalizing k with
  | nil =>
    cases h
    exact hk
  | cons u us ih =>
    rcases absorbAll_cons_cases h with ⟨-, hr⟩ | ⟨k₁, hk₁, h⟩
    · simp at hr
    · refine ih (fun v hv => hleaf v (by simp [hv])) (fun c hc => ?_) h
      rw [absorb_of_not_isCombinator (hleaf u (by simp))] at hk₁
      rcases others_of_addLeaf hk₁ with hothers | ⟨rfl, hu⟩
      · exact hk c (hothers ▸ hc)
      · rcases mem_others_addOther.mp hc with hc | rfl
        · exact hk c hc
        · exact hu

/-- The core as written out fits the required type. -/
theorem fits_of_mem_coreConditions (h : k.typeAndValues s (k.indexedParts s) = .ok first)
    (hc : c ∈ k.coreConditions s first) : c.Fits k.types.head? := by
  rcases mem_coreConditions.mp hc with hc | ⟨path, hc⟩ | hc
  · rcases typeAndValues_cases h with ⟨htypes, rfl⟩ | ⟨id, rest, htypes, -, rfl⟩ |
      ⟨id, rest, htypes, -, rfl | ⟨rfl, -⟩⟩
    · obtain ⟨v, -, rfl⟩ := List.mem_map.mp hc
      exact ⟨by simp, by simp, by simp [namedType?], fun _ => by simp [htypes]⟩
    · obtain ⟨v, -, rfl⟩ := List.mem_map.mp hc
      refine ⟨by simp, by simp, fun ty hty => ⟨id, by simp [htypes], ?_⟩, by simp [comparesUntyped]⟩
      simp only [namedType?, Option.ite_none_left_eq_some, Option.some.injEq] at hty
      exact hty.2.symm
    · rw [List.mem_singleton.mp hc]
      refine ⟨by simp, by simp, fun ty hty => ⟨id, by simp [htypes], ?_⟩, by simp [comparesUntyped]⟩
      exact (Option.some.inj hty).symm
    · simp at hc
  · obtain ⟨literal, op, id, index, -, -, rfl⟩ := mem_indexedParts.mp hc
    exact fits_of_untyped (by simp) (by simp) rfl rfl
  · obtain ⟨path, literal, op, -, -, rfl⟩ := mem_plainParts.mp hc
    exact fits_of_untyped (by simp) (by simp) rfl rfl

/-- The conjuncts fit each other in a conjunction as written out, if what it keeps besides fits every type. -/
theorem conjunctsFit_of_toCondition (hleaf : ∀ c ∈ k.others, c.isCombinator = false)
    (hothers : ∀ c ∈ k.others, ∀ required, c.Fits required) (h : k.toCondition s = .ok (.and cs)) :
    ConjunctsFit cs := by
  obtain ⟨first, hfirst, h⟩ := bind_eq_ok_iff.mp h
  have hand : conjunction (k.coreConditions s first ++ k.others) = .and cs := Except.ok.inj h
  have hcs : ∀ c ∈ k.coreConditions s first ++ k.others, c.isCombinator = false := by
    intro c hc
    rcases List.mem_append.mp hc with hc | hc
    · exact isCombinator_of_coreCondition (coreCondition_of_mem hfirst hc)
    · exact hleaf c hc
  obtain ⟨rfl, hlength⟩ := conjunction_eq_and hcs hand
  have hfits : ∀ c ∈ k.coreConditions s first ++ k.others, c.Fits k.types.head? := by
    intro c hc
    rcases List.mem_append.mp hc with hc | hc
    · exact fits_of_mem_coreConditions hfirst hc
    · exact hothers c hc _
  exact conjunctsFit_of_fits hlength hfits

end Conjunction

/-! ### Prepared conditions -/

namespace Condition

variable {c d : Condition} {cs ds : List Condition} {s : Store}

/-- Simplifying a conjunction of leaves makes its conjuncts fit, if a conjunction is left. -/
theorem conjunctsFit_of_simplify_and (hleaf : ∀ l ∈ cs, l.isCombinator = false)
    (h : simplify s (.and cs) = .ok (.and ds)) : ConjunctsFit ds := by
  rcases simplify_and_cases h with ⟨-, h⟩ | ⟨k, hk, ⟨-, h⟩ | ⟨-, h⟩⟩
  · simp at h
  · simp at h
  · rw [conjunctsOf_leaves hleaf] at hk
    have hempty : ∀ c, c ∉ Conjunction.empty.others := by simp [Conjunction.empty]
    refine Conjunction.conjunctsFit_of_toCondition (fun c hc => ?_) ?_ h
    · exact hleaf c ((mem_of_mem_others hleaf hk hc).resolve_left (hempty c))
    · exact Conjunction.fits_of_mem_others hleaf (fun c hc => absurd hc (hempty c)) hk

/-- The conjuncts of each alternative of a prepared condition fit each other. -/
theorem conjunctsFit_of_mem_alternatives (h : simplify s c.toNormalForm = .ok d) (hd : .and ds ∈ d.alternatives) :
    ConjunctsFit ds := by
  obtain ⟨arm, harm, hsimp⟩ := ((alternatives_of_simplify (g := .ofStore s) h).2 _ hd).resolve_left (by simp)
  have hleaf : ∀ l ∈ arm, l.isCombinator = false := fun l hl => isCombinator_of_mem_arm harm hl
  match arm, hleaf, hsimp with
  | [], _, hsimp => cases hsimp
  | [l], hleaf, hsimp =>
    have hl := hleaf l (by simp)
    rw [conjunction, simplify_of_not_isCombinator hl] at hsimp
    exact absurd (Except.ok.inj hsimp) (ne_and_of_not_isCombinator hl ds)
  | _ :: _ :: _, hleaf, hsimp => exact conjunctsFit_of_simplify_and hleaf hsimp

/-- A prepared condition is in disjunctive normal form. In every conjunction in it the conjuncts fit each other, and
every disjunction in it has at least two arms, none of which is empty. -/
theorem shape_of_simplify_toNormalForm (h : simplify s c.toNormalForm = .ok d) :
    d.isNormalForm = true ∧ (∀ cs, .and cs ∈ d.nodes → ConjunctsFit cs) ∧
      ∀ cs, .or cs ∈ d.nodes → 2 ≤ cs.length ∧ .nothing ∉ cs := by
  have hnormal := normalFormOf_of_simplify (g := .ofStore s) h
  refine ⟨hnormal.isNormalForm, fun cs hcs => ?and, fun cs hcs => ?or⟩
  case and => exact conjunctsFit_of_mem_alternatives h (and_mem_alternatives hnormal.isNormalForm hcs)
  case or =>
    obtain rfl := eq_or_of_mem_nodes hnormal.isNormalForm hcs
    exact ⟨hnormal.several cs rfl, nothing_notMem_of_simplify (g := .ofStore s) h⟩

/-- A type by its name, a string with that default type, an indexed part, and a search by null in another type; an arm
whose string is of another type than required; and an arm without a type. -/
theorem shape_of_simplify_toNormalForm_typed :
    let s : Store := { indexedStore with kindTypes := [("string", 1)] }
    let c : Condition := .or [
      .and [.or [.ofType (.named "Type"), .nothing], .value (.string "A") .gte, .part "x" (.int 3) .lt,
        .typedValue (.named "Subsumes") .null .eq],
      .and [.ofType (.named "Subsumes"), .value (.string "A") .eq],
      .and [.any, .incident 4, .not (.and [])]]
    let d : Condition := .or [
      .and [.typedValue (.handle 1) (.string "A") .gte, .indexedPart 1 "x" ⟨0, "x", .ranged, none⟩ (.int 3) .lt,
        .typedValue (.named "Subsumes") .null .eq],
      .and [.incident 4, .not (.and [])]]
    simplify s c.toNormalForm = .ok d ∧ d.isNormalForm = true ∧ (∀ cs, .and cs ∈ d.nodes → ConjunctsFit cs) ∧
      ∀ cs, .or cs ∈ d.nodes → 2 ≤ cs.length ∧ .nothing ∉ cs := by
  intro s c d
  have h : simplify s c.toNormalForm = .ok d := rfl
  exact ⟨h, shape_of_simplify_toNormalForm h⟩

end Condition

end HyperQuery
