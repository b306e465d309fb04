import HyperQuery.Cursor.Blueprint
import HyperQuery.Plan.Build
import HyperQuery.Plan.Explain

/-!
# Compiled queries

A condition compiled into a plan, with what is known about its results. A compiled query can be opened any number of
times; every opening reads the graph as it is then.
-/

namespace HyperQuery

mutual

/-- The blueprint of the cursor that runs a plan, with a limit on collected sets. -/
def Plan.blueprint (limit : Option Nat) : Plan → Blueprint
  | .empty => .reading .nothing
  | .fullScan => .reading .everything
  | .typeScan ty => .reading (.ofType ty)
  | .indexLookup index key op => .reading (.lookup index key op)
  | .incidence id => .reading (.incident id)
  | .targetSet link => .reading (.targets link)
  | .traversal walk => .walk walk
  | .zigZag left right => .zigZag (left.blueprint limit) (right.blueprint limit)
  | .sortedMerge left right => .sortedMerge (left.blueprint limit) (right.blueprint limit)
  | .union left right => .union (left.blueprint limit) (right.blueprint limit)
  | .filter base steps => .filter (base.blueprint limit) (FilterStep.checks limit steps)
  | .map base mapping => .map (base.blueprint limit) mapping

/-- The test that a step makes. -/
def FilterStep.check (limit : Option Nat) : FilterStep → Check
  | .predicate condition _ => .point condition
  | .membership plan _ => .member (plan.blueprint limit)
  | .materialized plan => .gather (plan.blueprint limit) limit

/-- The tests that steps make. -/
def FilterStep.checks (limit : Option Nat) : List FilterStep → List Check
  | [] => []
  | step :: rest => step.check limit :: FilterStep.checks limit rest

end

/-- A condition compiled into a plan. -/
structure CompiledQuery where
  /-- The condition after preparation. -/
  condition : Condition
  plan : Plan
  estimate : Estimate
  hash : UInt64
  /-- The configuration the query was compiled under. -/
  config : PlannerConfig

namespace CompiledQuery

/-- Opens the query, which is counted whether or not it succeeds. -/
def cursor (q : CompiledQuery) (g : Graph) : Metered Cursor := do
  Metered.spend .oneOpen
  Cursor.ofBlueprint g (q.plan.blueprint q.config.materializeLimit)

/-- Explains the plan; literals are shown if the configuration says so. -/
def explain (q : CompiledQuery) (catalog : Catalog) : PlanExplain :=
  let root := q.plan.explain catalog
  ⟨if q.config.explainLiterals then root else root.redact, q.hash⟩

end CompiledQuery

/-- Compiles a condition, without reading anything that is counted as a scan. -/
def Planner.compile (p : Planner) (c : Condition) : Metered CompiledQuery := do
  let condition ← p.prepare c
  let estimate ← condition.estimate p.graph
  let plan ← p.plan condition
  Metered.spend .oneCompile
  return { condition, plan, estimate, hash := plan.hash p.graph.catalog, config := p.config }

end HyperQuery
