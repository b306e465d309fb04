import HyperQuery.Proofs.Plan.Explain
import HyperQuery.Query

/-!
# What a redacted explanation shows

`Plan.withoutLiterals` replaces the keys of look-ups and the conditions of tests, at any depth. A plan and the plan without
its literals are explained the same once literals are hidden (`Plan.redact_explain_withoutLiterals`), so that nothing but
the literals is what plans may differ in without it showing (`CompiledQuery.redacted_explain`).
-/

namespace HyperQuery

mutual

/-- The plan with all keys and conditions replaced by the same ones. -/
def Plan.withoutLiterals : Plan → Plan
  | .indexLookup index _ op => .indexLookup index .null op
  | .zigZag left right => .zigZag left.withoutLiterals right.withoutLiterals
  | .sortedMerge left right => .sortedMerge left.withoutLiterals right.withoutLiterals
  | .union left right => .union left.withoutLiterals right.withoutLiterals
  | .filter base steps => .filter base.withoutLiterals (FilterStep.withoutLiteralsAll steps)
  | .map base mapping => .map base.withoutLiterals mapping
  | plan => plan

/-- The step with all keys and conditions replaced. -/
def FilterStep.withoutLiterals : FilterStep → FilterStep
  | .predicate _ cost => .predicate .any cost
  | .membership plan cost => .membership plan.withoutLiterals cost
  | .materialized plan => .materialized plan.withoutLiterals

/-- The steps with all keys and conditions replaced. -/
def FilterStep.withoutLiteralsAll : List FilterStep → List FilterStep
  | [] => []
  | step :: rest => step.withoutLiterals :: FilterStep.withoutLiteralsAll rest

end

variable {catalog : Catalog}

/-! ### Literals do not show -/

mutual

/-- Once literals are hidden, a plan is explained as if it had none. -/
theorem Plan.redact_explain_withoutLiterals :
    (p : Plan) → (p.withoutLiterals.explain catalog).redact = (p.explain catalog).redact
  | .empty | .fullScan | .typeScan _ | .incidence _ | .targetSet _ | .traversal _ => rfl
  | .indexLookup _ _ _ => rfl
  | .zigZag a b | .sortedMerge a b | .union a b => by
    simp only [withoutLiterals, explain, ExplainNode.redact, ExplainNode.redactAll, redact_explain_withoutLiterals a,
      redact_explain_withoutLiterals b]
  | .filter a steps => by
    simp only [withoutLiterals, explain, ExplainNode.redact, ExplainNode.redactAll, redact_explain_withoutLiterals a,
      redact_explainAll_withoutLiterals steps]
  | .map a m => by
    simp only [withoutLiterals, explain, ExplainNode.redact, ExplainNode.redactAll, redact_explain_withoutLiterals a]

theorem Plan.redact_explainStep_withoutLiterals :
    (s : FilterStep) → (s.withoutLiterals.explain catalog).redact = (s.explain catalog).redact
  | .predicate _ _ => rfl
  | .membership p _ => by
    simp only [FilterStep.withoutLiterals, FilterStep.explain, ExplainNode.redact, ExplainNode.redactAll,
      redact_explain_withoutLiterals p]
  | .materialized p => by
    simp only [FilterStep.withoutLiterals, FilterStep.explain, ExplainNode.redact, ExplainNode.redactAll,
      redact_explain_withoutLiterals p]

theorem Plan.redact_explainAll_withoutLiterals : (steps : List FilterStep) →
    ExplainNode.redactAll (FilterStep.explainAll catalog (FilterStep.withoutLiteralsAll steps)) =
      ExplainNode.redactAll (FilterStep.explainAll catalog steps)
  | [] => rfl
  | s :: steps => by
    simp only [FilterStep.withoutLiteralsAll, FilterStep.explainAll, ExplainNode.redactAll,
      redact_explainStep_withoutLiterals s, redact_explainAll_withoutLiterals steps]

end

/-! ### Everything else shows -/

/-- The property with the text of the literal that `Plan.withoutLiterals` puts in its place, if it is hidden. -/
def ExplainProp.fill (p : ExplainProp) : ExplainProp :=
  if p.redactable then { p with value := if p.key = "key" then "null" else "any" } else p

namespace ExplainNode

mutual

/-- The tree with texts for all hidden literals. -/
def fill : ExplainNode → ExplainNode
  | .node op props inputs => .node op (props.map ExplainProp.fill) (fillAll inputs)

/-- Trees with texts for all hidden literals. -/
def fillAll : List ExplainNode → List ExplainNode
  | [] => []
  | n :: rest => fill n :: fillAll rest

end

end ExplainNode

mutual

/-- What is left of an explanation when literals are hidden is enough for the explanation of the plan without them. -/
theorem Plan.fill_redact_explain : (p : Plan) → (p.explain catalog).redact.fill = p.withoutLiterals.explain catalog
  | .empty | .fullScan | .typeScan _ | .incidence _ | .targetSet _ | .traversal _ => rfl
  | .indexLookup _ _ _ => rfl
  | .zigZag a b | .sortedMerge a b | .union a b => by
    simp only [withoutLiterals, explain, ExplainNode.redact, ExplainNode.redactAll, ExplainNode.fill, ExplainNode.fillAll,
      fill_redact_explain a, fill_redact_explain b, List.map_nil]
  | .filter a steps => by
    simp only [withoutLiterals, explain, ExplainNode.redact, ExplainNode.redactAll, ExplainNode.fill, ExplainNode.fillAll,
      fill_redact_explain a, fillAll_redact_explain steps, List.map_nil]
  | .map a m => by
    simp only [withoutLiterals, explain, ExplainNode.redact, ExplainNode.redactAll, ExplainNode.fill, ExplainNode.fillAll,
      fill_redact_explain a]
    rfl

theorem Plan.fill_redact_explainStep :
    (s : FilterStep) → (s.explain catalog).redact.fill = s.withoutLiterals.explain catalog
  | .predicate _ _ => rfl
  | .membership p _ => by
    simp only [FilterStep.withoutLiterals, FilterStep.explain, ExplainNode.redact, ExplainNode.redactAll, ExplainNode.fill,
      ExplainNode.fillAll, fill_redact_explain p]
    rfl
  | .materialized p => by
    simp only [FilterStep.withoutLiterals, FilterStep.explain, ExplainNode.redact, ExplainNode.redactAll, ExplainNode.fill,
      ExplainNode.fillAll, fill_redact_explain p, List.map_nil]

theorem Plan.fillAll_redact_explain : (steps : List FilterStep) →
    ExplainNode.fillAll (ExplainNode.redactAll (FilterStep.explainAll catalog steps)) =
      FilterStep.explainAll catalog (FilterStep.withoutLiteralsAll steps)
  | [] => rfl
  | s :: steps => by
    simp only [FilterStep.withoutLiteralsAll, FilterStep.explainAll, ExplainNode.redactAll, ExplainNode.fillAll,
      fill_redact_explainStep s, fillAll_redact_explain steps]

end

/-! ### Explanations of queries -/

/-- Queries whose plans differ in nothing but the keys of look-ups and the conditions of tests are explained the same when
literals are hidden. Anything else in which plans may differ shows then as it does when literals are shown. -/
theorem CompiledQuery.redacted_explain {q r : CompiledQuery} (hq : q.config.explainLiterals = false)
    (hr : r.config.explainLiterals = false) (catalog : Catalog) :
    (q.plan.withoutLiterals = r.plan.withoutLiterals → (q.explain catalog).root = (r.explain catalog).root) ∧
      ((q.explain catalog).root = (r.explain catalog).root ↔
        q.plan.withoutLiterals.explain catalog = r.plan.withoutLiterals.explain catalog) := by
  have hroot : ∀ q : CompiledQuery, q.config.explainLiterals = false →
      (q.explain catalog).root = (q.plan.explain catalog).redact := by
    intro q hq
    simp [explain, hq]
  have hiff : (q.explain catalog).root = (r.explain catalog).root ↔
      q.plan.withoutLiterals.explain catalog = r.plan.withoutLiterals.explain catalog := by
    rw [hroot q hq, hroot r hr]
    constructor
    · intro h
      rw [← Plan.fill_redact_explain, h, Plan.fill_redact_explain]
    · intro h
      rw [← Plan.redact_explain_withoutLiterals, h, Plan.redact_explain_withoutLiterals]
  exact ⟨fun h => hiff.mpr (by rw [h]), hiff⟩

/-- The key of a look-up inside a set that is probed does not show, and neither does a condition; the index does. -/
theorem CompiledQuery.redacted_explain_probed :
    let catalog : Catalog := (Graph.ofStore .initial).catalog
    let query : String → Int64 → CompiledQuery := fun index n =>
      { condition := .any
        plan := .filter (.typeScan 3)
          [.predicate (.part "y" (.int n) .gt) .zero,
            .membership (.indexLookup ⟨0, index, .ranged, none⟩ (.int n) .eq) .zero]
        estimate := ⟨true, true, 0, 1, 1, .zero, false⟩, hash := 0, config := .strict }
    (∀ index n, (query index n).config.explainLiterals = false) ∧
      (query "Point.x" 1).plan.withoutLiterals = (query "Point.x" 2).plan.withoutLiterals ∧
      ((query "Point.x" 1).explain catalog).root = ((query "Point.x" 2).explain catalog).root ∧
      ((query "Point.x" 1).explain catalog).root ≠ ((query "Point.z" 1).explain catalog).root := by
  intro catalog query
  have hhidden : ∀ index n, (query index n).config.explainLiterals = false := fun _ _ => rfl
  refine ⟨hhidden, rfl, (redacted_explain (hhidden _ _) (hhidden _ _) catalog).1 rfl, fun h => ?_⟩
  have hexplain := (redacted_explain (hhidden _ _) (hhidden _ _) catalog).2.mp h
  simp [query, Plan.withoutLiterals, FilterStep.withoutLiteralsAll, FilterStep.withoutLiterals, Plan.explain,
    FilterStep.explainAll, FilterStep.explain, ExplainProp.plain] at hexplain

end HyperQuery
