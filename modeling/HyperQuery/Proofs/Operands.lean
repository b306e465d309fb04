import HyperQuery.Proofs.Condition.Distribution
import HyperQuery.Proofs.Estimate
import HyperQuery.Proofs.Plan.Slots
import HyperQuery.Proofs.Plan.Success
import HyperQuery.Proofs.Query

/-!
# Operands of mappings are estimated as they are written

A condition is prepared before it is estimated, the operand of a mapping is not. An estimate fails if it fails for a leaf
(`Condition.exists_estimate_iff_leaves`), and preparation loses leaves only where an arm turns out to match nothing: the
leaves of any other arm can be estimated if those that are left of it can (`Condition.exists_estimate_of_kept`). So a
mapping over a condition that compiles is refused exactly if a leaf of an arm that matches nothing has no estimate
(`Planner.compile_map_iff`, `Planner.exists_refused_operand`).
-/

namespace HyperQuery

namespace Condition

variable {g : Graph} {c l : Condition} {cs arm : List Condition}

/-! ### Estimates of leaves -/

theorem exists_estimates_iff : (∃ es, estimates g cs = .ok es) ↔ ∀ c ∈ cs, ∃ e, c.estimate g = .ok e := by
  constructor
  · rintro ⟨es, hes⟩ c hc
    obtain ⟨e, -, he⟩ := exists_estimate_of_mem hes hc
    exact ⟨e, he⟩
  · intro h
    induction cs with
    | nil => exact ⟨[], rfl⟩
    | cons c cs ih =>
      obtain ⟨e, he⟩ := h c (by simp)
      obtain ⟨es, hes⟩ := ih fun d hd => h d (by simp [hd])
      exact ⟨e :: es, bind_eq_ok_iff.mpr ⟨e, he, bind_eq_ok_iff.mpr ⟨es, hes, rfl⟩⟩⟩

/-- An answer that is computed from another fails only with that. -/
private theorem exists_map_eq_ok_iff {α β : Type} {x : Except QueryError α} {f : α → β} :
    (∃ b, (do return f (← x) : Except QueryError β) = .ok b) ↔ ∃ a, x = .ok a := by
  constructor
  · rintro ⟨b, h⟩
    obtain ⟨a, ha, -⟩ := bind_eq_ok_iff.mp h
    exact ⟨a, ha⟩
  · rintro ⟨a, ha⟩
    exact ⟨f a, bind_eq_ok_iff.mpr ⟨a, ha, rfl⟩⟩

private theorem exists_estimates_iff_leavesOf
    (h : ∀ c ∈ cs, ((∃ e, c.estimate g = .ok e) ↔ ∀ l ∈ c.leaves, ∃ e, l.estimate g = .ok e)) :
    (∃ es, estimates g cs = .ok es) ↔ ∀ l ∈ leavesOf cs, ∃ e, l.estimate g = .ok e := by
  rw [exists_estimates_iff]
  constructor
  · intro hcs l hl
    obtain ⟨c, hc, hl⟩ := mem_leavesOf.mp hl
    exact (h c hc).mp (hcs c hc) l hl
  · intro hleaves c hc
    exact (h c hc).mpr fun l hl => hleaves l (mem_leavesOf.mpr ⟨c, hc, hl⟩)

/-- A condition has an estimate exactly if its leaves have. -/
theorem exists_estimate_iff_leaves : (∃ e, c.estimate g = .ok e) ↔ ∀ l ∈ c.leaves, ∃ e, l.estimate g = .ok e := by
  induction c using combinatorInduction with
  | and cs ih => exact exists_map_eq_ok_iff.trans (exists_estimates_iff_leavesOf ih)
  | or cs ih => exact exists_map_eq_ok_iff.trans (exists_estimates_iff_leavesOf ih)
  | leaf c h => simp [leaves_of_not_isCombinator h]

theorem estimate_ofType {ty : TypeRef} {id : AtomId} (hty : ty.resolve g.store = .ok id) :
    (Condition.ofType ty).estimate g = .ok (.exact Estimate.typeCost (g.store.typeCount id)) := by
  rw [estimate_of_not_isCompound rfl, estimateLeaf, hty]
  rfl

theorem estimate_typedValue {ty : TypeRef} {literal : Value} {op : Comparison} {id : AtomId} (hnull : literal.isNull = false)
    (hty : ty.resolve g.store = .ok id) :
    (Condition.typedValue ty literal op).estimate g = estimateTypedValue g.store id literal op := by
  rw [estimate_of_not_isCompound rfl, estimateLeaf, rejectNull, hnull, hty]
  rfl

theorem estimate_value_of_some {literal : Value} {op : Comparison} {ty : AtomId} (hnull : literal.isNull = false)
    (hty : g.store.typeOfValue literal = some ty) :
    (Condition.value literal op).estimate g = estimateTypedValue g.store ty literal op := by
  rw [estimate_of_not_isCompound rfl, estimateLeaf, rejectNull, hnull, hty]
  rfl

theorem estimate_value_of_none {literal : Value} {op : Comparison} (hnull : literal.isNull = false)
    (hty : g.store.typeOfValue literal = none) :
    (Condition.value literal op).estimate g = .ok (.orderedScan Estimate.valueCost g.store.atomCount) := by
  rw [estimate_of_not_isCompound rfl, estimateLeaf, rejectNull, hnull, hty]
  rfl

/-! ### Arms that something may match -/

/-- A conjunct is estimated without fail, or like a condition that the slots are written out as. -/
private theorem exists_estimate_of_sortsIn {k k₁ k₂ : Conjunction} {first : List Condition}
    (hsorts : Conjunction.SortsIn g.store k₁ l (some k₂)) (hgrows : k₂.Grows k) (hcontra : k.isContradictory = false)
    (hfirst : k.typeAndValues g.store (k.indexedParts g.store) = .ok first)
    (he : ∀ l ∈ k.coreConditions g.store first ++ k.others, ∃ e, l.estimate g = .ok e) : ∃ e, l.estimate g = .ok e := by
  have htyped : ∀ {ty literal op}, ty ∈ k.types → ⟨literal, op⟩ ∈ k.values → literal.isNull = false →
      ∃ e, estimateTypedValue g.store ty literal op = .ok e := by
    intro ty literal op hty hv hnull
    have hmem := Conjunction.typedValue_mem_coreConditions (Conjunction.types_eq_of_mem hcontra hty) hv hfirst
    have hhandle : (TypeRef.handle ty).resolve g.store = .ok ty := rfl
    rw [← estimate_typedValue hnull hhandle]
    exact he _ (List.mem_append_left _ hmem)
  cases hsorts with
  | any => exact ⟨_, rfl⟩
  | type hty => exact ⟨_, estimate_ofType hty⟩
  | typedValue hnull hty =>
    rw [estimate_typedValue hnull hty]
    exact htyped (hgrows.types.subset (Conjunction.mem_types_requireType.mpr (.inr rfl)))
      (hgrows.values.subset (Conjunction.mem_values_addValue.mpr (.inr rfl))) hnull
  | defaultTyped hnull hty =>
    rw [estimate_value_of_some hnull hty]
    exact htyped (hgrows.types.subset (Conjunction.mem_types_requireType.mpr (.inr rfl)))
      (hgrows.values.subset (Conjunction.mem_values_addValue.mpr (.inr rfl))) hnull
  | untyped hnull hty => exact ⟨_, estimate_value_of_none hnull hty⟩
  | part => exact ⟨_, rfl⟩
  | other =>
    have hother := hgrows.others.subset (Conjunction.mem_others_addOther.mpr (.inr rfl))
    exact he _ (List.mem_append_right _ hother)

/-- The conjuncts of an arm have estimates if the simplified arm has, unless that matches nothing. -/
theorem exists_estimate_of_kept (harm : ∀ l ∈ arm, l.isCombinator = false)
    (hc : simplify g.store (conjunction arm) = .ok c) (hne : c ≠ .nothing) (he : ∃ e, c.estimate g = .ok e) :
    ∀ l ∈ arm, ∃ e, l.estimate g = .ok e := by
  match arm, harm, hc with
  | [], _, _ => simp
  | [l], harm, hc =>
    rw [conjunction, simplify_of_not_isCombinator (harm l (by simp))] at hc
    cases hc
    simpa using he
  | _ :: _ :: _, harm, hc =>
    obtain ⟨k, first, hk, hcontra, hfirst, hleaves⟩ := exists_slots_of_simplify harm hc hne
    intro l hl
    obtain ⟨_, _, hsorts, hgrows⟩ := exists_sortsIn_of_mem harm hk hl
    exact exists_estimate_of_sortsIn hsorts hgrows hcontra hfirst fun l hl =>
      exists_estimate_iff_leaves.mp he l (hleaves l hl)

/-- A condition that has an estimate when it is prepared has one as it is written, if the arms that are found to match
nothing are made of leaves that have estimates. -/
theorem exists_estimate_iff_of_prepared {d : Condition} (hd : simplify g.store c.toNormalForm = .ok d)
    (he : ∃ e, d.estimate g = .ok e) : (∃ e, c.estimate g = .ok e) ↔
      ∀ arm ∈ c.arms, simplify g.store (conjunction arm) = .ok .nothing → ∀ l ∈ arm, ∃ e, l.estimate g = .ok e := by
  rw [exists_estimate_iff_leaves]
  constructor
  · intro h arm harm _ l hl
    rcases mem_leaves_of_mem_arm harm hl with hl | rfl | rfl
    · exact h l hl
    · exact ⟨_, rfl⟩
    · exact ⟨_, rfl⟩
  · intro h l hl
    obtain ⟨arm, harm, hl⟩ := exists_mem_arm_of_mem_leaves hl
    obtain ⟨a, ha, hkept⟩ := (alternatives_of_simplify hd).1 arm harm
    by_cases hne : a = .nothing
    · exact h arm harm (hne ▸ ha) l hl
    · have hleaves : ∀ l ∈ a.leaves, ∃ e, l.estimate g = .ok e := fun l hl =>
        exists_estimate_iff_leaves.mp he l (mem_leaves_iff_alternatives.mpr ⟨a, hkept.resolve_left hne, hl⟩)
      exact exists_estimate_of_kept (fun l hl => isCombinator_of_mem_arm harm hl) ha hne
        (exists_estimate_iff_leaves.mpr hleaves) l hl

end Condition

namespace Planner

open Condition

variable {p : Planner} {c : Condition} {q : CompiledQuery} {mapping : Mapping}

/-- If a condition compiles, compiling a mapping over it goes as estimating the condition as written goes. -/
private theorem exists_answer_compile_map (mapping : Mapping) (hq : (p.compile c).answer = .ok q) :
    ∃ f : Estimate → CompiledQuery, (p.compile (.map c mapping)).answer = (c.estimate p.graph).map f := by
  obtain ⟨-, hprepare, -, hplan, -⟩ := stages_of_compile hq
  have hmapped := plan_map mapping hprepare hplan
  let mapped (e : Estimate) : CompiledQuery :=
    ⟨.map c mapping, .map q.plan mapping, ⟨false, false, 0, e.upper, e.expected, Estimate.notTestable, false⟩,
      (Plan.map q.plan mapping).hash p.graph.catalog, p.config⟩
  refine ⟨mapped, ?_⟩
  rcases he : c.estimate p.graph with error | e
  · have hestimate : (Condition.map c mapping).estimate p.graph = .error error := by
      rw [estimate, he]
      rfl
    refine (Metered.answer_bind_of_ok (a := .map c mapping) rfl).trans ?_
    exact Metered.answer_bind_of_error hestimate
  · refine answer_compile_eq_ok_iff.mpr ⟨rfl, ?_, hmapped, rfl, rfl⟩
    rw [estimate, he]
    rfl

/-- A mapping over a condition that compiles need not compile, since its operand is estimated as it is written, and not as
it is prepared. It is refused with the error of that estimate, which can only come from a leaf of an arm of the operand that
is found to match nothing: it compiles exactly if the leaves of all these arms have estimates. -/
theorem compile_map_iff (hq : (p.compile c).answer = .ok q) :
    ((∃ r, (p.compile (.map c mapping)).answer = .ok r) ↔
      ∀ arm ∈ c.arms, simplify p.graph.store (conjunction arm) = .ok .nothing →
        ∀ l ∈ arm, ∃ e, l.estimate p.graph = .ok e) ∧
    ∀ error, (p.compile (.map c mapping)).answer = .error error ↔ c.estimate p.graph = .error error := by
  obtain ⟨e, hprepare, he, -⟩ := stages_of_compile hq
  obtain ⟨f, hanswer⟩ := exists_answer_compile_map mapping hq
  rw [hanswer, ← exists_estimate_iff_of_prepared hprepare ⟨e, he⟩]
  rcases c.estimate p.graph with error | e <;> simp [Except.map]

/-- A contradiction, made of conditions that have estimates, beside an arm that something may match. -/
theorem compile_map_iff_types :
    let p : Planner := ⟨.permissive, .ofStore .initial⟩
    let c : Condition := .or [.incident 1, .and [.ofType (.handle 1), .subsumed 1, .ofType (.handle 2)]]
    (∃ q, (p.compile c).answer = .ok q) ∧ ∃ r, (p.compile (.map c .typeOf)).answer = .ok r := by
  intro p c
  have hok : (p.compile c).answer.isOk = true := by decide
  obtain ⟨q, hq⟩ := exists_of_isOk hok
  refine ⟨⟨q, hq⟩, (compile_map_iff hq).1.mpr fun arm harm _ l hl => ?_⟩
  have harms : arm ∈ [[.incident 1], [.ofType (.handle 1), .subsumed 1, .ofType (.handle 2)]] := harm
  rcases List.mem_pair.mp harms with rfl | rfl
  · rw [List.mem_singleton.mp hl]
    exact ⟨_, rfl⟩
  · simp only [List.mem_cons, List.not_mem_nil, or_false] at hl
    rcases hl with rfl | rfl | rfl
    · exact ⟨_, estimate_ofType rfl⟩
    · exact ⟨_, rfl⟩
    · exact ⟨_, estimate_ofType rfl⟩

/-- A search by null beside a contradiction compiles to the query without results. A mapping over it is refused. -/
theorem exists_refused_operand :
    let p : Planner := ⟨.permissive, .ofStore .initial⟩
    let c : Condition := .and [.ofType (.handle 1), .ofType (.handle 2), .value .null .eq]
    (∃ q, (p.compile c).answer = .ok q ∧ q.plan.isEmpty = true) ∧
      (p.compile (.map c .typeOf)).answer = .error (.unsupported .nullSearch) := by
  intro p c
  have hempty : (match (p.compile c).answer with
      | .ok q => q.plan.isEmpty
      | .error _ => false) = true := by decide
  refine ⟨?_, rfl⟩
  rcases hq : (p.compile c).answer with e | q
  · rw [hq] at hempty
    cases hempty
  · rw [hq] at hempty
    exact ⟨q, rfl, hempty⟩

end Planner

end HyperQuery
