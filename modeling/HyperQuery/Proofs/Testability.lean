import HyperQuery.Proofs.Plan.Steps
import HyperQuery.Proofs.Query

/-!
# Tests on one atom

Whether a condition can be tested on one atom is read off the cost in its estimate, and this is exact: the cost is at least
zero for conditions without walks and mappings, and the mark for what cannot be tested for all others. So no walk and no
mapped condition gets into a test of a plan (`Planner.testable_iff_pointwise`).
-/

namespace HyperQuery

namespace Planner

/-- The cost of a condition that can be estimated is at least zero exactly if neither a walk nor a mapping occurs in the
condition, at any depth, and otherwise it is the mark for what cannot be tested on one atom. No test in the plan of a
compiled query, at any depth, has a walk or a mapping in its condition. The costs of predicates supplied by users may be
any doubles; the arms of a disjunction are counted with 64 bits. -/
theorem testable_iff_pointwise (p : Planner) :
    (∀ (c : Condition) e, c.Sized → c.estimate p.graph = .ok e →
      (e.cost.isNonnegative = true ↔ c.isPointwise = true) ∧
        (c.isPointwise = false → e.cost = Estimate.notTestable)) ∧
      ∀ (c : Condition) q, (p.compile c).answer = .ok q →
        ∀ condition cost, .predicate condition cost ∈ q.plan.steps → condition.isPointwise = true := by
  refine ⟨fun c e hsized he => ⟨⟨?_, ?_⟩, ?_⟩, fun c q hq condition cost hstep => ?_⟩
  · exact Condition.isPointwise_of_isPredicate he
  · exact fun hpoint => Condition.isPredicate_of_isPointwise hsized hpoint he
  · exact fun hpoint => Condition.cost_of_not_isPointwise hpoint he
  · obtain ⟨_, hprepare, -, hplan, -⟩ := stages_of_compile hq
    have hall : q.plan.AllSteps fun step => ∀ d cost, step = .predicate d cost → d.isPointwise = true := by
      refine allSteps_of_prepare (fun d _ hpoint d' _ hd => ?_) (fun _ _ _ _ _ _ => ⟨by simp, by simp⟩) hprepare hplan
      cases hd
      exact hpoint
    exact hall _ hstep condition cost rfl

/-- Predicates of infinite and of undefined cost, negated and averaged, beside a walk and a mapping. -/
theorem testable_iff_pointwise_costs :
    let p : Planner := ⟨.permissive, ⟨.initial, fun n => ⟨"p", if n = 0 then .infinity else .nan, fun _ _ => .ok true⟩,
      fun _ => ⟨"m", fun _ id => .ok (some id)⟩⟩⟩
    let tests : Condition := .or [.predicate 0, .and [.predicate 0, .not (.predicate 1), .and []], .or []]
    let c : Condition := .and [.ofType (.handle 1), .not tests, .or [.subsumed 1, .map (.predicate 1) (.custom 0)]]
    ∃ e f q, tests.Sized ∧ tests.estimate p.graph = .ok e ∧
      (e.cost.isNonnegative = true ↔ tests.isPointwise = true) ∧
      c.Sized ∧ c.estimate p.graph = .ok f ∧ (c.isPointwise = false → f.cost = Estimate.notTestable) ∧
      (p.compile c).answer = .ok q ∧
      ∀ condition cost, .predicate condition cost ∈ q.plan.steps → condition.isPointwise = true := by
  intro p tests c
  have hsizedTests : tests.Sized := ⟨by decide, trivial, ⟨trivial, trivial, trivial, trivial⟩, ⟨by decide, trivial⟩, trivial⟩
  have hsized : c.Sized := ⟨trivial, hsizedTests, ⟨by decide, trivial, trivial, trivial⟩, trivial⟩
  have hok : (p.compile c).answer.isOk = true := by
    set_option maxRecDepth 2000 in decide
  have hestimate : (tests.estimate p.graph).isOk = true ∧ (c.estimate p.graph).isOk = true := by
    set_option maxRecDepth 2000 in decide
  obtain ⟨q, hq⟩ := exists_of_isOk hok
  obtain ⟨e, he⟩ := exists_of_isOk hestimate.1
  obtain ⟨f, hf⟩ := exists_of_isOk hestimate.2
  exact ⟨e, f, q, hsizedTests, he, ((testable_iff_pointwise p).1 tests e hsizedTests he).1, hsized, hf,
    ((testable_iff_pointwise p).1 c f hsized hf).2, hq, (testable_iff_pointwise p).2 c q hq⟩

end Planner

end HyperQuery
