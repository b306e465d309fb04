import HyperQuery.Proofs.Plan.Answers
import HyperQuery.Proofs.Plan.NormalForm

/-!
# Plans of normal forms and mappings answer them

The plan of a condition in disjunctive normal form answers it, provided that the plans of mapped operands read results of
the operands (`answers_planWith`). They do, since an operand is prepared and planned in the same way, one level further
down (`answers_planNested`).
-/

namespace HyperQuery

namespace Condition

variable {g : Graph} {c l : Condition}

/-! ### Indexes in prepared conditions -/

/-- The constraints of a condition are those of its leaves. -/
theorem mem_constraints_iff_leaves {b : Condition} : b ∈ c.constraints ↔ ∃ l ∈ c.leaves, b ∈ l.constraints := by
  induction c using combinatorInduction with
  | and cs ih | or cs ih =>
    simp only [constraints, mem_constraintsOf, leaves, mem_leavesOf]
    constructor
    · rintro ⟨c, hc, hb⟩
      obtain ⟨l, hl, hb⟩ := (ih c hc).mp hb
      exact ⟨l, ⟨c, hc, hl⟩, hb⟩
    · rintro ⟨l, ⟨c, hc, hl⟩, hb⟩
      exact ⟨c, hc, (ih c hc).mpr ⟨l, hl, hb⟩⟩
  | leaf c h => simp [leaves_of_not_isCombinator h]

section Names

variable {K : AtomId → String → IndexHandle → Prop}

theorem names_iff_leaves : c.Names K ↔ ∀ l ∈ c.leaves, l.Names K := by
  constructor
  · intro h l hl ty path index literal op hmem
    exact h ty path index literal op (mem_constraints_iff_leaves.mpr ⟨l, hl, hmem⟩)
  · intro h ty path index literal op hmem
    obtain ⟨l, hl, hmem⟩ := mem_constraints_iff_leaves.mp hmem
    exact h l hl ty path index literal op hmem

/-- Preparing a condition brings in registered indexes only. -/
theorem normalFormOf_names {d : Condition}
    (hK : ∀ ty path index, g.store.partIndex? ty path = some index → K ty path index) (h : c.Names K)
    (hd : simplify g.store c.toNormalForm = .ok d) : NormalFormOf (Names K) d := by
  have hcore : ∀ l, Conjunction.CoreCondition g.store l → (∀ a, l.Decided g a) → l.Names K := by
    intro l hl _ ty path index literal op hmem
    cases hl with
    | indexedPart hindex =>
      cases List.mem_singleton.mp hmem
      exact hK ty path index hindex
    | _ => simp [constraints] at hmem
  exact normalFormOf_simplify_toNormalForm (by simp [Names, constraints]) (by simp [Names, constraints]) hcore
    (names_iff_leaves.mp h) hd

end Names

/-- Registered indexes conform. -/
theorem normalFormOf_conforming {d : Condition} (hstore : g.store.Consistent) (h : c.Conforming)
    (hd : simplify g.store c.toNormalForm = .ok d) : NormalFormOf Conforming d :=
  normalFormOf_names (fun _ _ index hindex =>
    IndexHandle.conforms_of_view (hstore.partIndexed _ index (Store.mem_of_lookup hindex))) h hd

end Condition

namespace Planner

open Condition

variable {p : Planner} {f : Condition → Except QueryError Plan} {c : Condition} {cs : List Condition} {plan : Plan}

/-! ### Arms and normal forms -/

theorem listed_conjunct {e : Estimate} (hstore : p.graph.store.Consistent) (hleaf : c.isCombinator = false)
    (hconforming : c.Conforming) (he : c.estimate p.graph = .ok e) :
    Conjunct.Listed p.graph ⟨c, e, p.planWith f c⟩ := by
  refine ⟨hleaf, he, fun hdirect plan hplan => ?_⟩
  have hconstraint := isCompound_of_direct hleaf ⟨e, he, hdirect⟩
  have hmap : ∀ operand mapping, c ≠ .map operand mapping := by
    rintro operand mapping rfl
    simp [isCompound] at hconstraint
  rw [planWith_of_leaf hleaf hmap] at hplan
  exact listsFor_planLeaf hstore hconstraint hconforming he hdirect hplan

section Operands

variable (hstore : p.graph.store.Consistent)
  (hf : ∀ operand plan, operand.Conforming → f operand = .ok plan → plan.ReadsOnly p.graph (operand.Results p.graph))

include hstore hf

private theorem answers_planWith_leaf (hleaf : c.isCombinator = false) (hconforming : c.Conforming)
    (h : p.planWith f c = .ok plan) : ∃ items, plan.Answers p.graph c items := by
  rcases map_cases c with ⟨operand, mapping, rfl⟩ | hmap
  · rw [planWith] at h
    obtain ⟨base, hbase, h⟩ := bind_eq_ok_iff.mp h
    cases h
    have hreads : (Plan.map base mapping).ReadsOnly p.graph ((Condition.map operand mapping).Results p.graph) :=
      (hf operand base hconforming hbase).map.mono fun id hid => results_map.mpr hid
    refine hreads.answers fun d hd hlistable => ?_
    rw [List.mem_singleton.mp hd] at hlistable
    exact absurd hlistable.isConstraint (by simp [isCompound])
  · rw [planWith_of_leaf hleaf hmap] at h
    exact answers_planLeaf hstore hleaf hmap hconforming h

private theorem usable_conjunct {e : Estimate} (hleaf : c.isCombinator = false) (hconforming : c.Conforming)
    (he : c.estimate p.graph = .ok e) : Conjunct.Usable p.graph ⟨c, e, p.planWith f c⟩ := by
  refine ⟨listed_conjunct hstore hleaf hconforming he, fun plan hplan => ?_⟩
  obtain ⟨items, hanswers⟩ := answers_planWith_leaf hstore hf hleaf hconforming hplan
  exact hanswers.readsOnly

private theorem answers_planWith_arm (harm : ArmOf Conforming c) (h : p.planWith f c = .ok plan) :
    ∃ items, plan.Answers p.graph c items := by
  rcases isArm_cases harm.isArm with hleaf | ⟨cs, rfl, hleaf⟩
  · exact answers_planWith_leaf hstore hf hleaf (harm.leaves c (by simp [leaves_of_not_isCombinator hleaf])) h
  · rw [planWith] at h
    obtain ⟨es, hes, h⟩ := bind_eq_ok_iff.mp h
    have hconforming : ∀ l ∈ cs, l.Conforming := leaves_and hleaf ▸ harm.leaves
    obtain ⟨husable, hconditions⟩ :=
      forall_mem_conjuncts hes fun c hc e he => usable_conjunct hstore hf (hleaf c hc) (hconforming c hc) he
    have hreads : plan.ReadsOnly p.graph ((Condition.and cs).Results p.graph) := by
      refine (readsOnly_planConjunction hstore husable h).mono fun id hid => results_and.mpr fun c hc => ?_
      rw [← hconditions] at hc
      obtain ⟨x, hx, rfl⟩ := List.mem_map.mp hc
      exact hid x hx
    refine hreads.answers fun d hd hlistable => ?_
    rw [List.mem_singleton.mp hd] at hlistable
    exact absurd hlistable.isConstraint (by simp [isCompound])

private theorem readEach_plansWith {plans : List Plan} (harms : ∀ c ∈ cs, ArmOf Conforming c)
    (h : (p.plansWith f cs).mapM id = .ok plans) :
    ∃ parts, Plan.ReadEach p.graph plans parts ∧
      (∀ part ∈ parts, ∀ id ∈ part, ∃ c ∈ cs, c.Results p.graph id) ∧
      ∀ c ∈ cs, c.Listable p.graph → ∃ part ∈ parts, (∀ id, c.Matches p.graph id → id ∈ part) ∧ part.Nodup := by
  induction cs generalizing plans with
  | nil =>
    cases h
    exact ⟨[], .nil, by simp, by simp⟩
  | cons c cs ih =>
    rw [plansWith, List.mapM_cons] at h
    obtain ⟨plan, hplan, h⟩ := bind_eq_ok_iff.mp h
    obtain ⟨rest, hrest, h⟩ := bind_eq_ok_iff.mp h
    cases h
    have harm := harms c (by simp)
    obtain ⟨items, hanswers⟩ := answers_planWith_arm hstore hf harm hplan
    obtain ⟨parts, hreads, hresults, hlisted⟩ := ih (fun d hd => harms d (by simp [hd])) hrest
    refine ⟨items :: parts, .cons hanswers.reads hreads, fun part hpart id hid => ?_, fun d hd hlistable => ?_⟩
    · rcases List.mem_cons.mp hpart with rfl | hpart
      · exact ⟨c, by simp, hanswers.results id hid⟩
      · obtain ⟨d, hd, hid⟩ := hresults part hpart id hid
        exact ⟨d, by simp [hd], hid⟩
    · rcases List.mem_cons.mp hd with rfl | hd
      · exact ⟨items, by simp, hanswers.listed d harm.mem_alternatives hlistable⟩
      · obtain ⟨part, hpart, hmatches⟩ := hlisted d hd hlistable
        exact ⟨part, by simp [hpart], hmatches⟩

/-- The plan of a condition in disjunctive normal form answers it. -/
theorem answers_planWith (hnormal : NormalFormOf Conforming c) (h : p.planWith f c = .ok plan) :
    ∃ items, plan.Answers p.graph c items := by
  cases c with
  | or cs =>
    rw [planWith] at h
    obtain ⟨plans, hplans, h⟩ := bind_eq_ok_iff.mp h
    cases h
    obtain ⟨parts, hreads, hresults, hlisted⟩ := readEach_plansWith hstore hf hnormal.arms hplans
    obtain ⟨items, ordered, hitems, hmem, hnodup⟩ := hreads.unionAll
    refine ⟨items, ⟨ordered, hitems⟩, fun id hid => ?_, fun d hd hlistable => ?_⟩
    · obtain ⟨part, hpart, hid⟩ := (hmem id).mp hid
      exact results_or.mpr (hresults part hpart id hid)
    · obtain ⟨part, hpart, hmatches, hpartNodup⟩ := hlisted d hd hlistable
      exact ⟨fun id hid => (hmem id).mpr ⟨part, hpart, hmatches id hid⟩, hnodup part hpart hpartNodup⟩
  | _ => exact answers_planWith_arm hstore hf (hnormal.arms _ (List.mem_singleton_self _)) h

end Operands

/-! ### Mappings -/

/-- The plan of a condition in disjunctive normal form with its mappings answers it. -/
theorem answers_planNested (hstore : p.graph.store.Consistent) (depth : Nat) (hnormal : NormalFormOf Conforming c)
    (h : p.planNested depth c = .ok plan) : ∃ items, plan.Answers p.graph c items := by
  induction depth generalizing c plan with
  | zero => exact answers_planWith hstore (fun _ _ _ hplan => by simp at hplan) hnormal h
  | succ depth ih =>
    refine answers_planWith hstore (fun operand plan hconforming hplan => ?_) hnormal h
    obtain ⟨d, hd, hplan⟩ := bind_eq_ok_iff.mp hplan
    obtain ⟨items, hanswers⟩ := ih (normalFormOf_conforming hstore hconforming hd) hplan
    exact hanswers.readsOnly.mono fun id hid => results_of_toNormalForm (results_of_simplify hstore hd hid)

end Planner

end HyperQuery
