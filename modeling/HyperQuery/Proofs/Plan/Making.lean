import HyperQuery.Proofs.Plan.LeafPlans
import HyperQuery.Proofs.Plan.NormalForm
import HyperQuery.Proofs.Plan.Prepare

/-!
# How plans are made

What holds of the plans that planning makes is proved by going through the ways in which it puts plans together
(`Planner.Invariant.of_prepare`). Two things are told apart, what holds of every plan and what holds of the plans that are
sought: nothing is intersected by seeking, or probed, but what the estimate says can be sought, which is neither a walk nor
a mapping. Tests are made for conditions without walks and mappings, and plans are probed and collected for leaves.
-/

namespace HyperQuery

/-- Properties that every way of putting plans together keeps: `M false` of all plans, `M true` of plans that are sought, and
`S` of the steps of filters. -/
structure Planner.Invariant (p : Planner) (M : Bool → Plan → Prop) (S : FilterStep → Prop) : Prop where
  set : ∀ sought plan, plan.isSet = true → M sought plan
  walk : ∀ w, M false (.traversal w)
  forward : ∀ plan, M true plan → M false plan
  zigZag : ∀ left right, M true left → M true right → M true (.zigZag left right)
  sortedMerge : ∀ left right, M false left → M false right → M false (.sortedMerge left right)
  union : ∀ sought left right, M sought left → M sought right → M sought (.union left right)
  filtered : ∀ sought base steps, M sought base → (∀ step ∈ steps, S step) → M sought (.filtered base steps)
  map : ∀ base mapping, M false base → M false (.map base mapping)
  tested : ∀ (c : Condition) cost, c.isPointwise = true → S (.predicate c cost)
  probed : ∀ depth (c : Condition) plan cost, c.isCombinator = false → p.planNested depth c = .ok plan → M true plan →
    S (.membership plan cost)
  collected : ∀ depth (c : Condition) plan, c.isCombinator = false → p.planNested depth c = .ok plan → M false plan →
    S (.materialized plan)

/-- What a conjunct may become has the properties: its plan, which can be sought if the estimate says so, and its steps. -/
structure Conjunct.Provides (M : Bool → Plan → Prop) (S : FilterStep → Prop) (x : Conjunct) : Prop where
  sought : x.estimate.randomAccess = true → ∀ plan, x.plan = .ok plan → M true plan
  planned : ∀ plan, x.plan = .ok plan → M false plan
  tested : x.estimate.predicateOnly = true ∨ x.estimate.isPredicate = true → S (.predicate x.condition x.testCost)
  probed : x.estimate.randomAccess = true → ∀ plan, x.plan = .ok plan → S (.membership plan x.testCost)
  collected : ∀ plan, x.plan = .ok plan → S (.materialized plan)

namespace Planner.Invariant

open Condition Planner

variable {p : Planner} {M : Bool → Plan → Prop} {S : FilterStep → Prop} {c : Condition} {xs : List Conjunct} {plan : Plan}
  {sought : Bool} {f : Condition → Except QueryError Plan} {cost : Double} (hi : p.Invariant M S)

include hi

private theorem of_sought (h : M true plan) : M sought plan := by
  cases sought with
  | true => exact h
  | false => exact hi.forward plan h

private theorem unionAll {plans : List Plan} (h : ∀ plan ∈ plans, M sought plan) : M sought (.unionAll plans) := by
  cases plans with
  | nil => exact hi.set sought .empty rfl
  | cons plan plans =>
    exact List.foldlRecOn (motive := M sought) _ _ (h plan (by simp)) fun left hleft right hright =>
      hi.union sought left right hleft (h right (by simp [hright]))

/-! ### Conjunctions -/

/-- What is intersected has the properties, and so have the steps that what is left becomes. -/
private theorem of_planConjunction (hxs : ∀ x ∈ xs, x.Provides M S) (h : p.planConjunction c xs = .ok plan) :
    M false plan := by
  obtain ⟨b, zigZags, base?, hb, -, hall, hzigZags, hbase?, base, rest, ss, hchoice, hss, rfl⟩ :=
    stages_of_planConjunction h
  have hprovides : ∀ x ∈ b.all, x.Provides M S := fun x hx => hxs x (hall.mem_iff.mp hx)
  have htested : ∀ x ∈ b.tested, x.Provides M S := fun x hx => hprovides x (List.mem_append_right _ hx)
  -- what is intersected by seeking can be sought, and becomes one of the sets that are merged
  have hcovers : Covers (fun plan _ => M false plan) (fun _ _ => True) base?
      ((b.seekable ++ b.ordered).map Conjunct.condition) :=
    covers_base (fun _ => rfl) (by simp) (fun plan _ => M true plan) (fun left right _ _ => hi.zigZag left right)
      (fun left right _ _ => hi.sortedMerge left right) (fun plan _ => hi.forward plan)
      (fun x hx => (hprovides x (by simp [Buckets.all, hx])).sought (hb.seekable x hx).2)
      (fun x hx => (hprovides x (by simp [Buckets.all, hx])).planned) hzigZags hbase?
  have hparts : M false base ∧ rest.Sound ∧ ∀ x ∈ rest.tested, x.Provides M S := by
    rcases hchoice with ⟨rfl, rfl⟩ | ⟨-, hchoice⟩
    · exact ⟨hcovers, hb, htested⟩
    · rcases chooseBase_cases hb hchoice with ⟨x, hplan, hrest, hperm⟩ | ⟨hscan, rfl, -⟩
      · exact ⟨(htested x (hperm.mem_iff.mpr (by simp))).planned base hplan, hrest,
          fun y hy => htested y (hperm.mem_iff.mpr (by simp [hy]))⟩
      · exact ⟨hi.set false base (eq_of_fullScan hscan ▸ rfl), hb, htested⟩
  obtain ⟨hbase, hrest, hleft⟩ := hparts
  exact hi.filtered false base ss hbase (forall_steps
    (fun x hx => (hleft x (by simp [Buckets.tested, hx])).tested (hrest.tests x hx))
    (fun x hx => (hleft x (by simp [Buckets.tested, hx])).probed (hrest.probed x hx).2)
    (fun x hx => (hleft x (by simp [Buckets.tested, hx])).collected) hss)

/-! ### Leaves -/

private theorem test (hbase : M sought plan) (hpoint : c.isPointwise = true) :
    M sought (.filtered plan [.predicate c cost]) :=
  hi.filtered sought plan _ hbase fun step hstep => by
    rw [List.mem_singleton.mp hstep]
    exact hi.tested c cost hpoint

/-- The plan of a leaf that is not a mapping can be sought unless the leaf is a walk. -/
private theorem of_planLeaf (hwalk : sought = true → c.walkStart? = none) (h : p.planLeaf c = .ok plan) : M sought plan := by
  cases plannedAs_of_planLeaf h with
  | set hset => exact hi.set sought plan hset
  | @walk w id hstart =>
    cases sought with
    | false => exact hi.walk w
    | true => simp [hwalk rfl] at hstart
  | types ids =>
    refine hi.unionAll fun plan hplan => ?_
    obtain ⟨ty, -, rfl⟩ := List.mem_map.mp hplan
    exact hi.set sought _ rfl
  | test hbase hpoint => exact hi.test (hi.set sought _ hbase) hpoint
  | links hpoint =>
    refine hi.test (hi.of_sought ?_) hpoint
    exact Plan.incidences_induction (fun id => hi.set true _ rfl)
      (fun plan id hplan => hi.zigZag plan _ hplan (hi.set true _ rfl)) _ _

/-! ### Conditions -/

section Operands

variable (hprobed : ∀ (c : Condition) plan cost, c.isCombinator = false → p.planWith f c = .ok plan → M true plan →
    S (.membership plan cost))
  (hcollected : ∀ (c : Condition) plan, c.isCombinator = false → p.planWith f c = .ok plan → M false plan →
    S (.materialized plan))
  (hf : ∀ operand plan, f operand = .ok plan → M false plan)

include hf

private theorem of_planWith_leaf (hleaf : c.isCombinator = false) (h : p.planWith f c = .ok plan) : M false plan := by
  rcases map_cases c with ⟨operand, mapping, rfl⟩ | hmap
  · rw [planWith] at h
    obtain ⟨base, hbase, h⟩ := bind_eq_ok_iff.mp h
    cases h
    exact hi.map base mapping (hf operand base hbase)
  · rw [planWith_of_leaf hleaf hmap] at h
    exact hi.of_planLeaf (fun hsought => absurd hsought Bool.false_ne_true) h

omit hf in
/-- A leaf that the estimate says can be sought is neither a walk nor a mapping. -/
private theorem sought_of_planWith {e : Estimate} (hleaf : c.isCombinator = false) (he : c.estimate p.graph = .ok e)
    (hsought : e.randomAccess = true) (h : p.planWith f c = .ok plan) : M true plan := by
  have hmap : ∀ operand mapping, c ≠ .map operand mapping := by
    rintro operand mapping rfl
    exact (shape_of_map he).2.not_direct (.inr hsought)
  rw [planWith_of_leaf hleaf hmap] at h
  refine hi.of_planLeaf (fun _ => ?_) h
  cases hwalk : c.walkStart? with
  | none => rfl
  | some id => exact absurd (.inr hsought) (shape_of_walk hwalk he).2.1.not_direct

include hprobed hcollected

private theorem of_planWith_arm (harm : c.isArm = true) (h : p.planWith f c = .ok plan) : M false plan := by
  rcases isArm_cases harm with hleaf | ⟨cs, rfl, hleaf⟩
  · exact hi.of_planWith_leaf hf hleaf h
  · rw [planWith] at h
    obtain ⟨es, hes, h⟩ := bind_eq_ok_iff.mp h
    refine hi.of_planConjunction (forall_mem_conjuncts hes fun c hc e he => ?_).1 h
    have hsought : e.randomAccess = true → ∀ plan, p.planWith f c = .ok plan → M true plan := fun hsought _ =>
      hi.sought_of_planWith (hleaf c hc) he hsought
    have hplanned : ∀ plan, p.planWith f c = .ok plan → M false plan := fun _ => hi.of_planWith_leaf hf (hleaf c hc)
    refine ⟨hsought, hplanned, fun htested => ?_,
      fun hdirect plan hplan => hprobed c plan _ (hleaf c hc) hplan (hsought hdirect plan hplan),
      fun plan hplan => hcollected c plan (hleaf c hc) hplan (hplanned plan hplan)⟩
    -- what can only be tested can be tested
    have htestable : e.isPredicate = true := htested.elim (isPredicate_of_predicateOnly (hleaf c hc) he) id
    exact hi.tested c _ (isPointwise_of_isPredicate he htestable)

private theorem of_planWith (hnormal : c.isNormalForm = true) (h : p.planWith f c = .ok plan) : M false plan := by
  cases c with
  | or cs =>
    rw [planWith, plansWith_eq_map, List.mapM_map] at h
    obtain ⟨plans, hplans, h⟩ := bind_eq_ok_iff.mp h
    cases h
    refine hi.unionAll fun plan hplan => ?_
    obtain ⟨c, hc, h⟩ := (mem_of_mapM_eq_ok hplans).mp hplan
    exact hi.of_planWith_arm hprobed hcollected hf (List.all_eq_true.mp hnormal c hc) h
  | _ =>
    refine hi.of_planWith_arm hprobed hcollected hf ?_ h
    exact hnormal

end Operands

private theorem of_planNested (depth : Nat) (hnormal : c.isNormalForm = true) (h : p.planNested depth c = .ok plan) :
    M false plan := by
  induction depth generalizing c plan with
  | zero => exact hi.of_planWith (hi.probed 0) (hi.collected 0) (fun _ _ hplan => by simp at hplan) hnormal h
  | succ depth ih =>
    refine hi.of_planWith (hi.probed (depth + 1)) (hi.collected (depth + 1)) (fun operand plan hplan => ?_) hnormal h
    obtain ⟨d, hd, hplan⟩ := bind_eq_ok_iff.mp hplan
    exact ih (isNormalForm_of_prepare hd) hplan

/-- An invariant of planning holds of the plan of a prepared condition. -/
theorem of_prepare {d : Condition} (hd : p.prepare c = .ok d) (h : p.plan d = .ok plan) : M false plan :=
  hi.of_planNested _ (isNormalForm_of_prepare hd) h

end Planner.Invariant

end HyperQuery
