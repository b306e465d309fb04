import HyperQuery.Proofs.Condition.NormalForm
import HyperQuery.Proofs.Condition.Simplify
import HyperQuery.Proofs.Walk

/-!
# What a query can come up with

Evaluating a condition on a stored atom is not all there is to a query: a mapped condition cannot be evaluated on one
atom, and mappings and walks lead to handles of no stored atom. `Condition.Results` says which handles a query for a
condition can come up with, by the way it is made of others.

Preparing a condition adds nothing to its results: neither multiplying it out does (`results_of_toNormalForm`) nor
simplifying it (`results_of_simplify`).
-/

namespace HyperQuery

/-- A handle that a query for the condition can come up with. Conditions on stored atoms are evaluated, walks followed,
index entries taken as they are, and the results of an operand mapped. -/
inductive Condition.Results (g : Graph) : Condition → AtomId → Prop
  | any {id : AtomId} : Results g .any id
  | holds {c : Condition} {a : Atom} {id : AtomId} (hleaf : c.isCombinator = false) (ha : g.store.atom? id = some a)
    (h : c.Holds g a) : Results g c id
  | walked {w : Walk} {id : AtomId} (hreach : Reach (w.next g.store) w.start id)
    (hstart : w.includeStart = false → id ≠ w.start) : Results g (.walk w) id
  | subsumption {c : Condition} {order : VisitOrder} {w : Walk} {id : AtomId} (hw : c.subsumptionWalk? order = some w)
    (hreach : Reach (w.next g.store) w.start id) (hstart : w.includeStart = false → id ≠ w.start) : Results g c id
  | indexed {ty : AtomId} {path : String} {index : IndexHandle} {literal : Value} {op : Comparison} {id : AtomId}
    (h : id ∈ index.matching g.store op literal) : Results g (.indexedPart ty path index literal op) id
  | and {cs : List Condition} {id : AtomId} (h : ∀ c ∈ cs, Results g c id) : Results g (.and cs) id
  | or {cs : List Condition} {c : Condition} {id : AtomId} (hc : c ∈ cs) (h : Results g c id) : Results g (.or cs) id
  | map {operand : Condition} {mapping : Mapping} {x id : AtomId} (h : Results g operand x)
    (himage : mapping.apply g x = .ok (some id)) : Results g (.map operand mapping) id

namespace Condition

variable {g : Graph} {c d : Condition} {cs : List Condition} {id : AtomId}

/-! ### Combinations -/

theorem results_and : (Condition.and cs).Results g id ↔ ∀ c ∈ cs, c.Results g id := by
  refine ⟨fun h => ?_, .and⟩
  cases h with
  | holds hleaf _ _ => simp [isCombinator] at hleaf
  | subsumption hw _ _ => simp [subsumptionWalk?] at hw
  | and h => exact h

theorem results_or : (Condition.or cs).Results g id ↔ ∃ c ∈ cs, c.Results g id := by
  refine ⟨fun h => ?_, fun ⟨c, hc, h⟩ => .or hc h⟩
  cases h with
  | holds hleaf _ _ => simp [isCombinator] at hleaf
  | subsumption hw _ _ => simp [subsumptionWalk?] at hw
  | or hc h => exact ⟨_, hc, h⟩

theorem results_map {operand : Condition} {mapping : Mapping} :
    (Condition.map operand mapping).Results g id ↔
      ∃ x, operand.Results g x ∧ mapping.apply g x = .ok (some id) := by
  refine ⟨fun h => ?_, fun ⟨x, h, himage⟩ => .map h himage⟩
  cases h with
  | holds _ _ h => exact absurd h not_holds_map
  | subsumption hw _ _ => simp [subsumptionWalk?] at hw
  | map h himage => exact ⟨_, h, himage⟩

theorem not_results_nothing : ¬ Condition.nothing.Results g id := by
  intro h
  cases h with
  | holds _ _ h => exact not_holds_nothing h
  | subsumption hw _ _ => simp [subsumptionWalk?] at hw

theorem results_conjunction (h : (conjunction cs).Results g id) : ∀ c ∈ cs, c.Results g id := by
  match cs, h with
  | [], _ => simp
  | [c], h => simpa [conjunction] using h
  | _ :: _ :: _, h => exact results_and.mp h

theorem results_disjunction (h : (disjunction cs).Results g id) : ∃ c ∈ cs, c.Results g id := by
  match cs, h with
  | [], h => exact absurd h not_results_nothing
  | [c], h => exact ⟨c, by simp, h⟩
  | _ :: _ :: _, h => exact results_or.mp h

/-! ### Multiplying out -/

private theorem results_of_armProducts
    (ih : ∀ c ∈ cs, ∀ arm ∈ c.arms, (∀ l ∈ arm, l.Results g id) → c.Results g id) {arm : List Condition}
    (harm : arm ∈ armProducts cs) (h : ∀ l ∈ arm, l.Results g id) : ∀ c ∈ cs, c.Results g id := by
  induction cs generalizing arm with
  | nil => simp
  | cons c cs ihcs =>
    simp only [armProducts, List.mem_flatMap, List.mem_map] at harm
    obtain ⟨first, hfirst, rest, hrest, rfl⟩ := harm
    have hc : c.Results g id := ih c (by simp) first hfirst fun l hl => h l (List.mem_append_left _ hl)
    have hcs : ∀ d ∈ cs, d.Results g id :=
      ihcs (fun d hd => ih d (by simp [hd])) hrest fun l hl => h l (List.mem_append_right _ hl)
    exact List.forall_mem_cons.mpr ⟨hc, hcs⟩

/-- What all conditions of an arm can come up with, the condition can. -/
theorem results_of_arm {arm : List Condition} (harm : arm ∈ c.arms) (h : ∀ l ∈ arm, l.Results g id) :
    c.Results g id := by
  induction c using combinatorInduction generalizing arm with
  | and cs ih =>
    cases cs with
    | nil => exact .and (by simp)
    | cons c cs => exact .and (results_of_armProducts (fun d hd arm harm => ih d hd harm) harm h)
  | or cs ih =>
    cases cs with
    | nil =>
      rw [arms, List.mem_singleton] at harm
      exact absurd (h .nothing (by simp [harm])) not_results_nothing
    | cons c cs =>
      obtain ⟨d, hd, harm⟩ := mem_armLists.mp harm
      exact .or hd (ih d hd harm h)
  | leaf c hc =>
    rw [arms_of_not_isCombinator hc, List.mem_singleton] at harm
    exact h c (by simp [harm])

/-- The disjunctive normal form has no results that the condition does not have. -/
theorem results_of_toNormalForm (h : c.toNormalForm.Results g id) : c.Results g id := by
  obtain ⟨d, hd, h⟩ := results_disjunction h
  obtain ⟨arm, harm, rfl⟩ := List.mem_map.mp hd
  exact results_of_arm harm (results_conjunction h)

end Condition

/-! ### Sorting in -/

namespace Conjunction

open Condition

variable {g : Graph} {k k' : Conjunction} {id : AtomId}

/-- Nothing is asked of types, values and parts. -/
def Bare (k : Conjunction) : Prop := k.types = [] ∧ k.values = [] ∧ k.parts = []

/-- The handle is one that the conjunction can come up with: that of a stored atom that meets the core, unless the core
asks nothing, and a result of the other conditions. -/
structure Admits (k : Conjunction) (g : Graph) (id : AtomId) : Prop where
  core : k.Bare ∨ ∃ a, g.store.atom? id = some a ∧ k.Core a
  others : ∀ c ∈ k.others, c.Results g id

/-- Taking back a constraint `P` of the core. -/
private theorem admits_of_strengthened {P : Atom → Prop} (h : k'.Admits g id) (hbare : ¬ k'.Bare)
    (hcore : ∀ a, k'.Core a ↔ k.Core a ∧ P a) (hothers : k'.others = k.others) :
    k.Admits g id ∧ ∃ a, g.store.atom? id = some a ∧ P a := by
  obtain ⟨a, ha, hk'⟩ := h.core.resolve_left hbare
  obtain ⟨hk, hP⟩ := (hcore a).mp hk'
  exact ⟨⟨.inr ⟨a, ha, hk⟩, hothers ▸ h.others⟩, a, ha, hP⟩

private theorem admits_of_addOther {c : Condition} (h : (k.addOther c).Admits g id) :
    k.Admits g id ∧ c.Results g id := by
  have hcore : k.Bare ∨ ∃ a, g.store.atom? id = some a ∧ k.Core a := by
    refine h.core.imp_right ?_
    rintro ⟨a, ha, hcore⟩
    exact ⟨a, ha, core_addOther.mp hcore⟩
  exact ⟨⟨hcore, fun d hd => h.others d (mem_others_addOther.mpr (.inl hd))⟩,
    h.others c (mem_others_addOther.mpr (.inr rfl))⟩

/-- What the conjunction can come up with after a condition was sorted in, it could before, and so can the
condition. -/
theorem admits_of_sortsIn {c : Condition} (hr : SortsIn g.store k c (some k')) (h : k'.Admits g id) :
    k.Admits g id ∧ c.Results g id := by
  cases hr with
  | any => exact ⟨h, .any⟩
  | @type _ ty hty =>
    have hbare : ¬ ({ k.requireType ty with explicitType := true } : Conjunction).Bare := fun hb =>
      types_requireType_ne_nil hb.1
    obtain ⟨hk, a, ha, htype⟩ :=
      admits_of_strengthened h hbare (fun a => core_explicitType.trans core_requireType) rfl
    exact ⟨hk, .holds rfl ha (by rw [Holds, eval_ofType hty, htype]; simp)⟩
  | @typedValue _ literal op ty hnull hty =>
    have hbare : ¬ ((k.requireType ty).addValue literal op).Bare := fun hb => values_addValue_ne_nil hb.2.1
    obtain ⟨hk, a, ha, htype, hvalue⟩ := admits_of_strengthened (k := k) h hbare
      (fun a => core_addValue.trans ((and_congr_left fun _ => core_requireType).trans and_assoc)) rfl
    exact ⟨hk, .holds rfl ha (by rw [Holds, eval_typedValue hnull hty, htype, hvalue]; simp)⟩
  | @defaultTyped literal op ty hnull hty =>
    have hbare : ¬ ((k.requireType ty).addValue literal op).Bare := fun hb => values_addValue_ne_nil hb.2.1
    obtain ⟨hk, a, ha, htype, hvalue⟩ := admits_of_strengthened (k := k) h hbare
      (fun a => core_addValue.trans ((and_congr_left fun _ => core_requireType).trans and_assoc)) rfl
    exact ⟨hk, .holds rfl ha (by rw [Holds, eval_value_of_some hnull hty, htype, hvalue]; simp)⟩
  | @untyped literal op hnull hty =>
    have hbare : ¬ (k.addValue literal op).Bare := fun hb => values_addValue_ne_nil hb.2.1
    obtain ⟨hk, a, ha, hvalue⟩ := admits_of_strengthened h hbare (fun a => core_addValue) rfl
    exact ⟨hk, .holds rfl ha (by rw [Holds, eval_value_of_none hnull hty, hvalue])⟩
  | @part path literal op =>
    have hbare : ¬ (k.addPart path literal op).Bare := fun hb =>
      List.ne_nil_of_mem (mem_parts_addPart.mpr (.inr rfl)) hb.2.2
    obtain ⟨hk, a, ha, hpart⟩ := admits_of_strengthened h hbare (fun a => core_addPart) rfl
    exact ⟨hk, .holds rfl ha (by rw [Holds, eval_part, hpart])⟩
  | other => exact admits_of_addOther h

/-! ### Writing out -/

/-- A condition of the core has results among stored atoms only, since its indexes are registered. -/
private theorem holds_of_results {c : Condition} (hstore : g.store.Consistent) (hc : CoreCondition g.store c)
    (h : c.Results g id) : ∃ a, g.store.atom? id = some a ∧ c.Holds g a := by
  cases h with
  | holds _ ha h => exact ⟨_, ha, h⟩
  | indexed h =>
    cases hc with
    | indexedPart hindex =>
      obtain ⟨a, ha, hpart⟩ := (Store.mem_matching_partIndex hstore hindex).mp h
      exact ⟨a, ha, holds_indexedPart_iff.mpr hpart⟩
  | subsumption hw _ _ => cases hc <;> simp [subsumptionWalk?] at hw
  | any | walked _ _ | and _ | or _ _ | map _ _ => cases hc

private theorem bare_of_coreConditions_eq_nil {first : List Condition} (hw : k.WellFormed g.store)
    (h : k.typeAndValues g.store (k.indexedParts g.store) = .ok first) (hnil : k.coreConditions g.store first = []) :
    k.Bare := by
  have hno : ∀ c, c ∉ k.coreConditions g.store first := fun c hc => by simp [hnil] at hc
  have hfirst : first = [] := List.eq_nil_iff_forall_not_mem.mpr fun c hc => hno c (mem_coreConditions.mpr (.inl hc))
  have hindexed : ∀ part, part ∉ k.indexedParts g.store := fun part hpart =>
    hno part.2 (mem_coreConditions.mpr (.inr (.inl ⟨part.1, hpart⟩)))
  have hparts : k.parts = [] := by
    refine List.eq_nil_iff_forall_not_mem.mpr ?_
    rintro ⟨path, literal, op⟩ hmem
    rcases hindex : indexFor g.store k.types.head? path op with _ | ⟨ty, index⟩
    · exact hno _ (mem_coreConditions.mpr (.inr (.inr (mem_plainParts.mpr ⟨path, literal, op, hmem, hindex, rfl⟩))))
    · exact hindexed _ (mem_indexedParts.mpr ⟨literal, op, ty, index, hmem, hindex, rfl⟩)
  rcases typeAndValues_cases h with ⟨htypes, hvalues⟩ | ⟨ty, rest, -, hvalues, hmap⟩ |
    ⟨ty, rest, htypes, hvalues, hsingle | ⟨-, hexplicit | ⟨part, hpart⟩⟩⟩
  · exact ⟨htypes, List.map_eq_nil_iff.mp (hvalues.symm.trans hfirst), hparts⟩
  · exact absurd (List.map_eq_nil_iff.mp (hmap.symm.trans hfirst)) hvalues
  · rw [hfirst] at hsingle
    simp at hsingle
  · -- a type comes from a value or was required by itself
    rcases hw.typed (by simp [htypes]) with ht | hv
    · rw [hexplicit] at ht
      simp at ht
    · exact absurd hvalues hv
  · exact absurd hpart (hindexed part)

/-- What a conjunction as written out can come up with, it could as slots. -/
theorem admits_of_toCondition {d : Condition} (hstore : g.store.Consistent) (hw : k.WellFormed g.store)
    (hone : k.types.length ≤ 1) (hd : k.toCondition g.store = .ok d) (h : d.Results g id) : k.Admits g id := by
  obtain ⟨first, hfirst, hd⟩ := bind_eq_ok_iff.mp hd
  cases hd
  have hall : ∀ c ∈ k.coreConditions g.store first ++ k.others, c.Results g id := results_conjunction h
  have hcore : ∀ c ∈ k.coreConditions g.store first, ∃ a, g.store.atom? id = some a ∧ c.Holds g a := fun c hc =>
    holds_of_results hstore (coreCondition_of_mem hfirst hc) (hall c (List.mem_append_left _ hc))
  refine ⟨?_, fun c hc => hall c (List.mem_append_right _ hc)⟩
  rcases hconditions : k.coreConditions g.store first with _ | ⟨c, rest⟩
  · exact .inl (bare_of_coreConditions_eq_nil hw hfirst hconditions)
  · obtain ⟨a, ha, -⟩ := hcore c (by simp [hconditions])
    refine .inr ⟨a, ha, core_of_holds_coreConditions hw hone hfirst fun d hd => ?_⟩
    obtain ⟨a', ha', hholds⟩ := hcore d hd
    rw [ha] at ha'
    cases ha'
    exact hholds

end Conjunction

namespace Condition

variable {g : Graph} {c d : Condition} {cs : List Condition} {id : AtomId}

/-! ### Simplifying -/

/-- Simplifying the condition adds no results. -/
def Sheds (g : Graph) (c : Condition) : Prop :=
  ∀ d, simplify g.store c = .ok d → ∀ id, d.Results g id → c.Results g id

private theorem admits_of_absorbAll {us : List Condition} {k k' : Conjunction} (hu : ∀ u ∈ us, ∀ cs, u ≠ .and cs)
    (hsheds : ∀ u ∈ us, u.Sheds g) (h : absorbAll g.store k us = .ok (some k')) (hk' : k'.Admits g id) :
    k.Admits g id ∧ ∀ u ∈ us, u.Results g id := by
  induction us generalizing k with
  | nil =>
    cases h
    exact ⟨hk', by simp⟩
  | cons u us ih =>
    rcases absorbAll_cons_cases h with ⟨-, hr⟩ | ⟨k₁, hk₁, h⟩
    · simp at hr
    · obtain ⟨hadmits, hrest⟩ := ih (fun v hv => hu v (by simp [hv])) (fun v hv => hsheds v (by simp [hv])) h
      have hstep : k.Admits g id ∧ u.Results g id := by
        rcases absorb_cases (hu u (by simp)) hk₁ with ⟨-, hr⟩ | ⟨d, hd, ⟨-, hr⟩ | hr⟩
        · exact Conjunction.admits_of_sortsIn hr hadmits
        · simp at hr
        · cases hr
          obtain ⟨hk, hdid⟩ := Conjunction.admits_of_sortsIn .other hadmits
          exact ⟨hk, hsheds u (by simp) d hd id hdid⟩
      exact ⟨hstep.1, List.forall_mem_cons.mpr ⟨hstep.2, hrest⟩⟩

private theorem results_of_conjuncts (h : ∀ u ∈ c.conjuncts, u.Results g id) : c.Results g id := by
  induction c using combinatorInduction with
  | and cs ih => exact .and fun c hc => ih c hc fun u hu => h u (mem_conjunctsOf.mpr ⟨c, hc, hu⟩)
  | or cs _ => exact h _ (by simp [conjuncts])
  | leaf c hc => exact h c (by simp [conjuncts_of_not_isCombinator hc])

private theorem sheds_and (hstore : g.store.Consistent) (hsheds : ∀ u ∈ conjunctsOf cs, u.Sheds g) :
    (Condition.and cs).Sheds g := by
  intro d hd id h
  have hu : ∀ u ∈ conjunctsOf cs, ∀ ds, u ≠ .and ds := fun u hu =>
    ne_and_of_mem_conjuncts (c := .and cs) (by rwa [conjuncts])
  rcases simplify_and_cases hd with ⟨-, rfl⟩ | ⟨k, hk, ⟨-, rfl⟩ | ⟨hcontra, hd⟩⟩
  · exact absurd h not_results_nothing
  · exact absurd h not_results_nothing
  · have hw := wellFormed_of_absorbAll hu hk Conjunction.wellFormed_empty
    have hone : k.types.length ≤ 1 := by
      simp only [Conjunction.isContradictory, Bool.or_eq_false_iff, decide_eq_false_iff_not] at hcontra
      omega
    have hadmits := Conjunction.admits_of_toCondition hstore hw hone hd h
    exact results_of_conjuncts (c := .and cs) (admits_of_absorbAll hu hsheds hk hadmits).2

private theorem sheds_of_conjuncts (hstore : g.store.Consistent) (h : ∀ u ∈ c.conjuncts, u.Sheds g) : c.Sheds g := by
  cases c with
  | and cs => exact sheds_and hstore h
  | _ => exact h _ (by simp [conjuncts])

private theorem exists_of_results_simplifyArms {ds : List Condition} (hsheds : ∀ c ∈ cs, c.Sheds g)
    (hds : simplifyArms g.store cs = .ok ds) (hd : d ∈ ds) (h : d.Results g id) : ∃ c ∈ cs, c.Results g id := by
  induction cs generalizing ds with
  | nil =>
    cases hds
    simp at hd
  | cons c cs ih =>
    obtain ⟨first, hfirst, hds⟩ := bind_eq_ok_iff.mp hds
    obtain ⟨rest, hrest, hds⟩ := bind_eq_ok_iff.mp hds
    cases hds
    rcases List.mem_append.mp hd with hd | hd
    · have hresult : first.Results g id := by
        cases first with
        | nothing => simp [spread] at hd
        | or arms => exact .or hd h
        | _ =>
          have heq := List.mem_singleton.mp hd
          rwa [heq] at h
      exact ⟨c, by simp, hsheds c (by simp) first hfirst id hresult⟩
    · obtain ⟨c', hc', h'⟩ := ih (fun c hc => hsheds c (by simp [hc])) hrest hd
      exact ⟨c', by simp [hc'], h'⟩

/-- A simplified condition has no results that the condition does not have. -/
theorem results_of_simplify (hstore : g.store.Consistent) (hd : simplify g.store c = .ok d) (h : d.Results g id) :
    c.Results g id := by
  have hconjuncts : ∀ u ∈ c.conjuncts, u.Sheds g := by
    clear hd h
    induction c using combinatorInduction with
    | and cs ih =>
      intro u hu
      obtain ⟨c, hc, hu⟩ := mem_conjunctsOf.mp hu
      exact ih c hc u hu
    | or cs ih =>
      intro u hu d hd id h
      rw [conjuncts, List.mem_singleton] at hu
      · subst hu
        obtain ⟨ds, hds, hd⟩ := bind_eq_ok_iff.mp hd
        cases hd
        obtain ⟨d, hd, h⟩ := results_disjunction h
        exact results_or.mpr
          (exists_of_results_simplifyArms (fun c hc => sheds_of_conjuncts hstore (ih c hc)) hds hd h)
      · simp
    | leaf c hc =>
      intro u hu d hd id h
      rw [conjuncts_of_not_isCombinator hc, List.mem_singleton] at hu
      subst hu
      rw [simplify_of_not_isCombinator hc] at hd
      cases hd
      exact h
  exact sheds_of_conjuncts hstore hconjuncts d hd id h

end Condition

end HyperQuery
