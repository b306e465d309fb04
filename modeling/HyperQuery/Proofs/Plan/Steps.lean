import HyperQuery.Proofs.Plan.Making

/-!
# The steps in a plan

A plan may have filters at any depth: under intersections, unions and mappings, and in the plans that steps of other
filters probe or collect (`Plan.steps`). What holds of all these steps follows from where planning makes steps: tests are
made for conditions without walks and mappings, and plans are probed and collected for leaves
(`Planner.allSteps_of_prepare`).
-/

namespace HyperQuery

mutual

/-- The steps of the filters in the plan, at any depth. -/
def Plan.steps : Plan → List FilterStep
  | .zigZag left right | .sortedMerge left right | .union left right => left.steps ++ right.steps
  | .filter base steps => base.steps ++ FilterStep.withNested steps
  | .map base _ => base.steps
  | _ => []

/-- The steps in the plan that the step probes or collects. -/
def FilterStep.nested : FilterStep → List FilterStep
  | .predicate _ _ => []
  | .membership plan _ => plan.steps
  | .materialized plan => plan.steps

/-- Steps of a filter with the steps in their plans. -/
def FilterStep.withNested : List FilterStep → List FilterStep
  | [] => []
  | step :: rest => step :: (step.nested ++ FilterStep.withNested rest)

end

variable {S : FilterStep → Prop}

namespace Plan

variable {plan left right base : Plan} {steps : List FilterStep} {mapping : Mapping}

/-- All steps in the plan have the property. -/
def AllSteps (S : FilterStep → Prop) (plan : Plan) : Prop := ∀ step ∈ plan.steps, S step

theorem allSteps_append (h : plan.steps = left.steps ++ right.steps) :
    plan.AllSteps S ↔ left.AllSteps S ∧ right.AllSteps S := by
  rw [AllSteps, h]
  exact List.forall_mem_append

@[simp] theorem allSteps_zigZag : (zigZag left right).AllSteps S ↔ left.AllSteps S ∧ right.AllSteps S :=
  allSteps_append rfl

@[simp] theorem allSteps_sortedMerge : (sortedMerge left right).AllSteps S ↔ left.AllSteps S ∧ right.AllSteps S :=
  allSteps_append rfl

@[simp] theorem allSteps_union : (union left right).AllSteps S ↔ left.AllSteps S ∧ right.AllSteps S :=
  allSteps_append rfl

@[simp] theorem allSteps_map : (map base mapping).AllSteps S ↔ base.AllSteps S := Iff.rfl

/-- A plan without filters has no steps. -/
theorem allSteps_of_nil (h : plan.steps = []) : plan.AllSteps S := by simp [AllSteps, h]

private theorem forall_withNested :
    (∀ step ∈ FilterStep.withNested steps, S step) ↔ ∀ step ∈ steps, S step ∧ ∀ inner ∈ step.nested, S inner := by
  induction steps with
  | nil => simp [FilterStep.withNested]
  | cons step rest ih => simp only [FilterStep.withNested, List.forall_mem_cons, List.forall_mem_append, ih, and_assoc]

@[simp] theorem allSteps_filtered :
    (filtered base steps).AllSteps S ↔ base.AllSteps S ∧ ∀ step ∈ steps, S step ∧ ∀ inner ∈ step.nested, S inner := by
  cases steps with
  | nil => simp [filtered]
  | cons step rest =>
    show (∀ inner ∈ base.steps ++ FilterStep.withNested (step :: rest), S inner) ↔ _
    rw [List.forall_mem_append, forall_withNested]
    rfl

end Plan

namespace Planner

variable {p : Planner} {c : Condition} {plan : Plan}

/-- All steps in the plan of a prepared condition have a property, if tests of conditions without walks and mappings have
it, and probing and collecting the plans of leaves. -/
theorem allSteps_of_prepare (htests : ∀ (c : Condition) cost, c.isPointwise = true → S (.predicate c cost))
    (hsets : ∀ depth (c : Condition) plan cost, c.isCombinator = false → p.planNested depth c = .ok plan →
      S (.membership plan cost) ∧ S (.materialized plan))
    {d : Condition} (hd : p.prepare c = .ok d) (h : p.plan d = .ok plan) : plan.AllSteps S := by
  have hinvariant : p.Invariant (fun _ plan => plan.AllSteps S) fun step => S step ∧ ∀ inner ∈ step.nested, S inner := {
    set := fun _ plan hset => Plan.allSteps_of_nil (by cases plan <;> first | rfl | simp [Plan.isSet] at hset)
    walk := fun _ => Plan.allSteps_of_nil rfl
    forward := fun _ => id
    zigZag := fun _ _ hl hr => Plan.allSteps_zigZag.mpr ⟨hl, hr⟩
    sortedMerge := fun _ _ hl hr => Plan.allSteps_sortedMerge.mpr ⟨hl, hr⟩
    union := fun _ _ _ hl hr => Plan.allSteps_union.mpr ⟨hl, hr⟩
    filtered := fun _ _ _ hbase hsteps => Plan.allSteps_filtered.mpr ⟨hbase, hsteps⟩
    map := fun _ _ => Plan.allSteps_map.mpr
    tested := fun c cost hpoint => ⟨htests c cost hpoint, by simp [FilterStep.nested]⟩
    probed := fun depth c plan cost hleaf hplan hsteps => ⟨(hsets depth c plan cost hleaf hplan).1, hsteps⟩
    collected := fun depth c plan hleaf hplan hsteps => ⟨(hsets depth c plan .zero hleaf hplan).2, hsteps⟩ }
  exact hinvariant.of_prepare hd h

end Planner

end HyperQuery
