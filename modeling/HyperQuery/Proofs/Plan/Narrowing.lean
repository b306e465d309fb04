import HyperQuery.Proofs.Plan.Slots
import HyperQuery.Proofs.Plan.Success

/-!
# Narrowing an alternative

More conjuncts leave fewer results. While they are sorted in, the slots of a conjunction only grow, so that a narrowed
alternative can draw its candidates from what the alternative drew them from (`Conjunction.Grows.draws`), and has no other
mappings (`Condition.narrowed`). What else it has are tests, and conditions whose results can only be had by reading every
atom.
-/

namespace HyperQuery

/-! ### Drawing candidates from the slots -/

namespace Conjunction

variable {s : Store} {k k' : Conjunction} {c : Condition} {first : List Condition}

/-- Candidates can be drawn from the type that the conjunction requires, or from one of its other conditions. -/
def Draws (k : Conjunction) : Prop := k.types ≠ [] ∨ ∃ l ∈ k.others, l.isTest = false

theorem Grows.draws (h : Grows k k') (hk : k.Draws) : k'.Draws := by
  rcases hk with htypes | ⟨l, hl, htest⟩
  · exact .inl fun hnil => htypes (List.prefix_nil.mp (hnil ▸ h.types))
  · exact .inr ⟨l, h.others.subset hl, htest⟩

/-- Written out, a conjunction that candidates can be drawn from has a condition that is not a test. -/
theorem Draws.exists_mem (hw : k.WellFormed s) (hfirst : k.typeAndValues s (k.indexedParts s) = .ok first)
    (h : k.Draws) : ∃ l ∈ k.coreConditions s first ++ k.others, l.isTest = false := by
  have hcore : ∀ l ∈ k.coreConditions s first, l.isTest = false →
      ∃ l ∈ k.coreConditions s first ++ k.others, l.isTest = false := fun l hl htest =>
    ⟨l, List.mem_append_left _ hl, htest⟩
  rcases h with htypes | ⟨l, hl, htest⟩
  · rcases typeAndValues_cases hfirst with ⟨hnil, -⟩ | ⟨ty, rest, -, hvalues, rfl⟩ |
      ⟨ty, rest, -, hvalues, rfl | ⟨rfl, hexplicit | ⟨⟨path, c⟩, hpart⟩⟩⟩
    · exact absurd hnil htypes
    · obtain ⟨v, hv⟩ := List.exists_mem_of_ne_nil _ hvalues
      exact hcore _ (mem_coreConditions.mpr (.inl (List.mem_map.mpr ⟨v, hv, rfl⟩))) rfl
    · exact hcore _ (mem_coreConditions.mpr (.inl (List.mem_singleton_self _))) rfl
    · rcases hw.typed htypes with ht | hv
      · simp [hexplicit] at ht
      · exact absurd hvalues hv
    · obtain ⟨literal, op, ty', index, -, -, rfl⟩ := mem_indexedParts.mp hpart
      exact hcore _ (mem_coreConditions.mpr (.inr (.inl ⟨path, hpart⟩))) rfl
  · exact ⟨l, List.mem_append_right _ hl, htest⟩

/-- If a condition that a conjunction is written out as has results that can be had without reading every atom, candidates
can be drawn from the conjunction. -/
theorem draws_of_mem (hw : k.WellFormed s) (hfirst : k.typeAndValues s (k.indexedParts s) = .ok first)
    (hc : c ∈ k.coreConditions s first ++ k.others) (htest : c.isTest = false) (hreads : c.readsEverything s = false) :
    k.Draws := by
  rcases List.mem_append.mp hc with hc | hc
  · left
    rcases mem_coreConditions.mp hc with hc | ⟨path, hc⟩ | hc
    · rcases typeAndValues_cases hfirst with ⟨hnil, rfl⟩ | ⟨ty, rest, htypes, -⟩ | ⟨ty, rest, htypes, -⟩
      · obtain ⟨v, hv, rfl⟩ := List.mem_map.mp hc
        simp [Condition.readsEverything, hw.untyped hnil v hv] at hreads
      · simp [htypes]
      · simp [htypes]
    · obtain ⟨literal, op, ty, index, -, hindex, -⟩ := mem_indexedParts.mp hc
      intro hnil
      simpa [hnil] using (indexFor_eq_some hindex).1
    · obtain ⟨path, literal, op, -, -, rfl⟩ := mem_plainParts.mp hc
      simp [Condition.isTest] at htest
  · exact .inr ⟨c, hc, htest⟩

end Conjunction

/-! ### The narrowed alternative -/

namespace Condition

variable {s : Store} {k : Conjunction} {c d l : Condition}

section Narrowed

variable {arm more : List Condition} (harm : ∀ l ∈ arm, l.isCombinator = false)

include harm

private theorem wellFormed_of_arm (h : absorbAll s .empty arm = .ok (some k)) : k.WellFormed s :=
  wellFormed_of_absorbAll (fun u hu => ne_and_of_not_isCombinator (harm u hu)) h Conjunction.wellFormed_empty

/-- The slots of an alternative that can be planned without reading every atom have something to draw candidates from. -/
private theorem draws_of_alternative (hc : simplify s (conjunction arm) = .ok c)
    (hdraw : ∃ l ∈ c.leaves, l.isTest = false ∧ l.readsEverything s = false)
    (hk : absorbAll s .empty arm = .ok (some k)) (hcontra : k.isContradictory = false) : k.Draws := by
  obtain ⟨l, hl, htest, hreads⟩ := hdraw
  match arm, harm, hc, hk with
  | [], _, hc, _ =>
    cases hc
    have hl : l ∈ [Condition.any] := hl
    rw [List.mem_singleton.mp hl] at hreads
    simp [readsEverything] at hreads
  | [u], harm, hc, hk =>
    have hu := harm u (by simp)
    rw [conjunction, simplify_of_not_isCombinator hu] at hc
    cases hc
    rw [leaves_of_not_isCombinator hu, List.mem_singleton] at hl
    subst hl
    rcases absorbAll_cons_cases hk with ⟨-, hr⟩ | ⟨k₁, hk₁, hrest⟩
    · simp at hr
    · cases hrest
      cases sortsIn_of_absorb hu hk₁ with
      | any => simp [readsEverything] at hreads
      | type _ | typedValue _ _ | defaultTyped _ _ =>
        exact .inl (Conjunction.types_requireType_ne_nil (k := .empty))
      | untyped _ hty => simp [readsEverything, hty] at hreads
      | part => simp [isTest] at htest
      | other => exact .inr ⟨l, Conjunction.mem_others_addOther.mpr (.inr rfl), htest⟩
  | u :: v :: rest, harm, hc, hk =>
    have hothers := others_of_absorbAll harm hk
    obtain ⟨first, hfirst, hleaves | ⟨rfl, -⟩⟩ :=
      leaves_of_toCondition (fun l hl => harm l (hothers l hl)) (toCondition_of_simplify harm hc hk hcontra)
    · exact Conjunction.draws_of_mem (wellFormed_of_arm harm hk) hfirst (hleaves ▸ hl) htest hreads
    · rw [List.mem_singleton.mp hl] at hreads
      simp [readsEverything] at hreads

/-- A mapping in an alternative stays one of its leaves. -/
private theorem map_mem_leaves {operand : Condition} {mapping : Mapping} (hc : simplify s (conjunction arm) = .ok c)
    (hk : absorbAll s .empty arm = .ok (some k)) (hcontra : k.isContradictory = false)
    (hmem : .map operand mapping ∈ arm) : .map operand mapping ∈ c.leaves := by
  match arm, harm, hc, hk, hmem with
  | [u], harm, hc, hk, hmem =>
    have hu := harm u (by simp)
    rw [conjunction, simplify_of_not_isCombinator hu] at hc
    cases hc
    rwa [leaves_of_not_isCombinator hu]
  | u :: v :: rest, harm, hc, hk, hmem =>
    have hothers := others_of_absorbAll harm hk
    have hmap : .map operand mapping ∈ k.others := by
      obtain ⟨_, _, hsorts, hgrows⟩ := exists_sortsIn_of_mem harm hk hmem
      cases hsorts with
      | other => exact hgrows.others.subset (Conjunction.mem_others_addOther.mpr (.inr rfl))
    obtain ⟨first, hfirst, hleaves | ⟨-, hnil⟩⟩ :=
      leaves_of_toCondition (fun l hl => harm l (hothers l hl)) (toCondition_of_simplify harm hc hk hcontra)
    · exact hleaves ▸ List.mem_append_right _ hmap
    · rw [(List.append_eq_nil_iff.mp hnil).2] at hmap
      simp at hmap

variable (hmore : ∀ l ∈ more, l.isCombinator = false)

include hmore

/-- An alternative that can be planned without reading every atom is narrowed by further conjuncts. If something may match
it still, candidates can be drawn from one of its leaves, and it has no mappings but those it had. -/
theorem narrowed (hmap : ∀ operand mapping, .map operand mapping ∉ more) (hc : simplify s (conjunction arm) = .ok c)
    (hdraw : ∃ l ∈ c.leaves, l.isTest = false ∧ l.readsEverything s = false)
    (hd : simplify s (conjunction (arm ++ more)) = .ok d) (hne : d ≠ .nothing) :
    (∃ l ∈ d.leaves, l.isTest = false) ∧ ∀ operand mapping, .map operand mapping ∈ d.leaves → .map operand mapping ∈ c.leaves := by
  by_cases hnil : more = []
  · subst hnil
    rw [List.append_nil] at hd
    cases hc.symm.trans hd
    obtain ⟨l, hl, htest, -⟩ := hdraw
    exact ⟨⟨l, hl, htest⟩, fun _ _ => id⟩
  have hleaf : ∀ l ∈ arm ++ more, l.isCombinator = false := List.forall_mem_append.mpr ⟨harm, hmore⟩
  have hand : conjunction (arm ++ more) = .and (arm ++ more) := by
    match arm, more, hc, hnil with
    | [], _, hc, _ =>
      cases hc
      obtain ⟨l, hl, -, hreads⟩ := hdraw
      have hl : l ∈ [Condition.any] := hl
      rw [List.mem_singleton.mp hl] at hreads
      simp [readsEverything] at hreads
    | [_], _ :: _, _, _ | _ :: _ :: _, _, _, _ => rfl
  rw [hand] at hd
  rcases simplify_and_cases hd with ⟨-, hnothing⟩ | ⟨k, hk, ⟨-, hnothing⟩ | ⟨hcontra, h⟩⟩
  · exact absurd hnothing hne
  · exact absurd hnothing hne
  rw [conjunctsOf_leaves hleaf] at hk
  -- the conjuncts of the alternative are sorted in first
  obtain ⟨k₀, hk₀, hgrows⟩ : ∃ k₀, absorbAll s .empty arm = .ok (some k₀) ∧ k₀.Grows k := by
    have happend := hk
    rw [absorbAll_append] at happend
    obtain ⟨_ | k₀, hk₀, hrest⟩ := bind_eq_ok_iff.mp happend
    · cases hrest
    · exact ⟨k₀, hk₀, grows_of_absorbAll hmore hrest⟩
  have hcontra₀ : k₀.isContradictory = false := by
    by_contra hnot
    rw [hgrows.isContradictory (by simpa using hnot)] at hcontra
    cases hcontra
  have hothers := others_of_absorbAll hleaf hk
  obtain ⟨first, hfirst, hleaves⟩ := leaves_of_toCondition (fun l hl => hleaf l (hothers l hl)) h
  obtain ⟨l, hl, htest⟩ := (hgrows.draws (draws_of_alternative harm hc hdraw hk₀ hcontra₀)).exists_mem
    (wellFormed_of_arm hleaf hk) hfirst
  rcases hleaves with hleaves | ⟨-, hempty⟩
  · refine ⟨⟨l, hleaves ▸ hl, htest⟩, fun operand mapping hmem => ?_⟩
    rw [hleaves] at hmem
    rcases List.mem_append.mp hmem with hmem | hmem
    · cases Conjunction.coreCondition_of_mem hfirst hmem
    · have hmem := (List.mem_append.mp (hothers _ hmem)).resolve_right (hmap operand mapping)
      exact map_mem_leaves harm hc hk₀ hcontra₀ hmem
  · rw [hempty] at hl
    simp at hl

end Narrowed

/-- The arms of a conjunction of two conditions. -/
private theorem exists_append_of_mem_arms {arm : List Condition} (h : arm ∈ (Condition.and [c, d]).arms) :
    ∃ first ∈ c.arms, ∃ second ∈ d.arms, arm = first ++ second := by
  simp only [arms, armProducts, List.mem_flatMap, List.mem_map, List.mem_singleton] at h
  obtain ⟨first, hfirst, _, ⟨second, hsecond, _, rfl, rfl⟩, rfl⟩ := h
  exact ⟨first, hfirst, second, hsecond, by rw [List.append_nil]⟩

/-- What can be tested is not made of mappings. -/
private theorem map_notMem_arm {g : Graph} {e : Estimate} (he : c.estimate g = .ok e) (htestable : e.isPredicate = true)
    {arm : List Condition} (harm : arm ∈ c.arms) (operand : Condition) (mapping : Mapping) : .map operand mapping ∉ arm := by
  intro hmem
  have hl : .map operand mapping ∈ c.leaves := (mem_leaves_of_mem_arm harm hmem).resolve_right (by simp)
  clear harm hmem
  induction c using combinatorInduction generalizing e with
  | and cs ih =>
    obtain ⟨es, hes, he⟩ := bind_eq_ok_iff.mp he
    cases he
    obtain ⟨c, hc, hl⟩ := mem_leavesOf.mp hl
    obtain ⟨e, hmem, hce⟩ := exists_estimate_of_mem hes hc
    exact ih c hc hce (Estimate.isPredicate_of_conjunction htestable e hmem) hl
  | or cs ih =>
    obtain ⟨es, hes, he⟩ := bind_eq_ok_iff.mp he
    cases he
    obtain ⟨c, hc, hl⟩ := mem_leavesOf.mp hl
    obtain ⟨e, hmem, hce⟩ := exists_estimate_of_mem hes hc
    exact ih c hc hce (Estimate.isPredicate_of_disjunction htestable e hmem) hl
  | leaf c hleaf =>
    rw [leaves_of_not_isCombinator hleaf, List.mem_singleton] at hl
    subst hl
    obtain ⟨inner, -, he⟩ := bind_eq_ok_iff.mp he
    cases he
    rw [Estimate.isPredicate, Estimate.isNonnegative_notTestable] at htestable
    cases htestable

end Condition

namespace Planner

open Condition

variable {p : Planner} {c d narrow prepared l : Condition} {e : Estimate} {plan : Plan} {E : QueryError → Prop}

/-- The operand of a mapping can be planned. -/
private def OperandPlanned (p : Planner) (operand : Condition) : Prop := ∃ plan, p.prepare operand >>= p.plan = .ok plan

/-- What can be planned without full scans has drivers. -/
private theorem drives_of_plan (hprepare : p.prepare c = .ok prepared) (he : prepared.estimate p.graph = .ok e)
    (hplan : p.plan prepared = .ok plan) : ∀ d ∈ prepared.alternatives, p.Drives p.OperandPlanned d.leaves :=
  (settles_plan (E := fun _ => True) (fun _ => trivial) (fun _ _ _ => .any _) (isNormalForm_of_prepare hprepare) he).iff.mp
    ⟨plan, hplan⟩

/-- A condition that can be planned without full scans, narrowed by one that can be tested, can be planned if it has no
condition left that reads every atom, and is refused otherwise. -/
theorem settles_plan_narrowed (hstrict : p.config.allowFullScan = false) (hprepare : p.prepare c = .ok prepared)
    (hprepared : prepared.estimate p.graph = .ok e) (hplan : p.plan prepared = .ok plan) {en : Estimate}
    (hnarrow : narrow.estimate p.graph = .ok en) (htestable : en.isPredicate = true)
    (hd : p.prepare (.and [c, narrow]) = .ok d) {ed : Estimate} (he : d.estimate p.graph = .ok ed)
    (hE : ∀ text, E (.plan (.fullScanDisabled text))) :
    Settles E (∀ l ∈ d.leaves, l.readsEverything p.graph.store = false) (p.plan d) := by
  have hdrives := drives_of_plan hprepare hprepared hplan
  -- each alternative comes from one of the condition before
  have hnarrowed : ∀ A ∈ d.alternatives, (∃ l ∈ A.leaves, l.isTest = false) ∧
      ∀ operand mapping, .map operand mapping ∈ A.leaves → p.OperandPlanned operand := by
    intro A hA
    obtain ⟨hsimplified, -⟩ := alternatives_of_simplify hprepare
    rcases (alternatives_of_simplify hd).2 A hA with rfl | ⟨arm, harm, hA⟩
    · exact ⟨⟨.nothing, by simp [leaves], rfl⟩, by simp [leaves]⟩
    by_cases hne : A = .nothing
    · rw [hne]
      exact ⟨⟨.nothing, by simp [leaves], rfl⟩, by simp [leaves]⟩
    obtain ⟨first, hfirst, second, hsecond, rfl⟩ := exists_append_of_mem_arms harm
    obtain ⟨B, hB, hmem⟩ := hsimplified first hfirst
    have hdrive : p.Drives p.OperandPlanned B.leaves := by
      rcases hmem with rfl | hmem
      · refine ⟨fun l hl _ => ?_, .inr ⟨.nothing, by simp [leaves], rfl⟩⟩
        have hl : l ∈ [Condition.nothing] := hl
        rw [List.mem_singleton.mp hl]
        exact ⟨by simp, .inr rfl⟩
      · exact hdrives B hmem
    obtain ⟨hall, hsome⟩ := hdrive
    obtain ⟨l, hl, htest⟩ := hsome.resolve_left (by simp [hstrict])
    obtain ⟨hdraws, hmaps⟩ := narrowed (fun l hl => isCombinator_of_mem_arm hfirst hl)
      (fun l hl => isCombinator_of_mem_arm hsecond hl) (map_notMem_arm hnarrow htestable hsecond) hB
      ⟨l, hl, htest, (hall l hl htest).2.resolve_left (by simp [hstrict])⟩ hA hne
    exact ⟨hdraws, fun operand mapping hmem => (hall _ (hmaps operand mapping hmem) rfl).1 operand mapping rfl⟩
  have hplanned : ∀ operand mapping, .map operand mapping ∈ d.leaves → p.OperandPlanned operand := by
    intro operand mapping hmem
    obtain ⟨A, hA, hmem⟩ := mem_leaves_iff_alternatives.mp hmem
    exact (hnarrowed A hA).2 operand mapping hmem
  refine (settles_plan (O := p.OperandPlanned) hE (fun operand mapping hmem =>
    have hO := hplanned operand mapping hmem
    .of_exists hO hO) (isNormalForm_of_prepare hd) he).congr ?_
  constructor
  · intro hdrive l hl
    obtain ⟨A, hA, hl⟩ := mem_leaves_iff_alternatives.mp hl
    cases htest : l.isTest with
    | true => cases l <;> first | rfl | simp [isTest] at htest
    | false => exact ((hdrive A hA).1 l hl htest).2.resolve_left (by simp [hstrict])
  · intro hreads A hA
    obtain ⟨hdraws, hmaps⟩ := hnarrowed A hA
    refine ⟨fun l hl _ => ⟨?_, .inr (hreads l (mem_leaves_iff_alternatives.mpr ⟨A, hA, hl⟩))⟩, .inr hdraws⟩
    rintro operand mapping rfl
    exact hmaps operand mapping hl

end Planner

end HyperQuery
