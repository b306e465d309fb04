import HyperQuery.Condition.Basic

/-!
# Plans

A plan says how the results of a condition are produced: which sets are read, how they are intersected, united,
filtered and mapped. A plan holds no state; opening it gives a fresh cursor.
-/

namespace HyperQuery

mutual

/-- How results are produced. -/
inductive Plan
  /-- No results, without reading anything. -/
  | empty
  /-- Every atom. -/
  | fullScan
  /-- The atoms of exactly one type. -/
  | typeScan (ty : AtomId)
  /-- The atoms whose key in an index compares so with the key. -/
  | indexLookup (index : IndexHandle) (key : Value) (op : Comparison)
  /-- The links that point at an atom. -/
  | incidence (id : AtomId)
  /-- The targets of a link. -/
  | targetSet (link : AtomId)
  /-- The atoms that a walk visits. -/
  | traversal (walk : Walk)
  /-- The common results of two ordered plans, by seeking in each what the other has. -/
  | zigZag (left right : Plan)
  /-- The common results of two ordered plans, by reading both side by side. -/
  | sortedMerge (left right : Plan)
  /-- The results of two plans, each once. -/
  | union (left right : Plan)
  /-- The results of a plan that pass every step. -/
  | filter (base : Plan) (steps : List FilterStep)
  /-- The images of the results of a plan. -/
  | map (base : Plan) (mapping : Mapping)

/-- A test that candidates have to pass. -/
inductive FilterStep
  /-- The condition holds for the candidate. -/
  | predicate (condition : Condition) (cost : Double)
  /-- The candidate is found among the results of a plan by seeking it there. -/
  | membership (plan : Plan) (cost : Double)
  /-- The candidate is among the results of a plan, which are collected when the first candidate is tested. -/
  | materialized (plan : Plan)

end

namespace Plan

/-- Whether the plan is known to have no results. -/
def isEmpty : Plan → Bool
  | .empty => true
  | _ => false

/-- The plan with steps, if there are any. -/
def filtered (base : Plan) (steps : List FilterStep) : Plan := if steps.isEmpty then base else .filter base steps

/-- The union of plans, grouped to the left. -/
def unionAll : List Plan → Plan
  | [] => .empty
  | p :: ps => ps.foldl .union p

end Plan

namespace FilterStep

/-- The cost of testing one candidate. Collected sets come last. -/
def cost : FilterStep → Double
  | .predicate _ cost => cost
  | .membership _ cost => cost
  | .materialized _ => .largest

end FilterStep

end HyperQuery
