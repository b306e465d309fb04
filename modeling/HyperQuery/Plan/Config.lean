import HyperQuery.Walk

/-!
# Planner configuration

What influences the choice and the execution of plans.
-/

namespace HyperQuery

/-- The settings of a planner. -/
structure PlannerConfig where
  /-- Whether a plan may read every atom. -/
  allowFullScan : Bool
  /-- The order in which subsumption walks visit types. -/
  visitOrder : VisitOrder
  /-- The largest set a filter may collect; any size if there is none. -/
  materializeLimit : Option Nat
  /-- Whether literals are shown when a plan is explained. -/
  explainLiterals : Bool
  deriving DecidableEq

namespace PlannerConfig

/-- No full scans, and a limit on collected sets. -/
def strict : PlannerConfig := ⟨false, .breadthFirst, some 1048576, false⟩

/-- Every kind of plan. -/
def permissive : PlannerConfig := ⟨true, .breadthFirst, none, true⟩

end PlannerConfig

end HyperQuery
