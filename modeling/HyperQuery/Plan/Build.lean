import HyperQuery.Condition.Simplify
import HyperQuery.Estimate
import HyperQuery.Plan.Basic
import HyperQuery.Plan.Config

/-!
# Planning

A condition is prepared (normal form, then simplification) and turned into a plan. The conjuncts of a conjunction are
sorted by their estimates into sets to intersect, sets to probe, tests, and sets to collect; the cheapest way to
enumerate candidates becomes the base, everything else a step of a filter.

The operand of a mapping is prepared on its own. Preparation does not nest mappings deeper, so planning a condition
descends through at most `Condition.mapDepth` mappings.
-/

namespace HyperQuery

/-- What planning depends on. -/
structure Planner where
  config : PlannerConfig
  graph : Graph

/-- A conjunct with its estimate and its plan. -/
structure Conjunct where
  condition : Condition
  estimate : Estimate
  plan : Except QueryError Plan

namespace Conjunct

/-- The cost of testing one atom; the largest of all for what cannot be tested. -/
def testCost (c : Conjunct) : Double := if c.estimate.isPredicate then c.estimate.cost else .largest

/-- Takes the least element, the first one of several, out of a list. -/
def takeLeast {α : Type} (less : α → α → Bool) : List α → Option (α × List α)
  | [] => none
  | x :: rest =>
    match takeLeast less rest with
    | some (least, others) => if less least x then some (least, x :: others) else some (x, rest)
    | none => some (x, rest)

/-- Whether the first conjunct is expected to have fewer results. -/
def expectsFewer (a b : Conjunct) : Bool := decide (a.estimate.expected < b.estimate.expected)

/-- Whether the first conjunct is cheaper to test. -/
def testsCheaper (a b : Conjunct) : Bool := a.testCost.totalCompare b.testCost == .lt

end Conjunct

/-- The conjuncts of a conjunction, by how they take part in the plan. -/
structure Buckets where
  /-- Ordered sets that can be sought. -/
  seekable : List Conjunct
  /-- Ordered sets that have to be read. -/
  ordered : List Conjunct
  /-- Unordered sets that can be probed. -/
  probed : List Conjunct
  /-- Tests of single atoms. -/
  tests : List Conjunct
  /-- Sets that have to be collected. -/
  collected : List Conjunct

namespace Buckets

def empty : Buckets := ⟨[], [], [], [], []⟩

/-- Adds a conjunct at the end of its bucket. -/
def add (b : Buckets) (c : Conjunct) : Buckets :=
  let e := c.estimate
  if e.predicateOnly then { b with tests := b.tests ++ [c] }
  else if e.ordered && e.randomAccess then { b with seekable := b.seekable ++ [c] }
  else if e.ordered then { b with ordered := b.ordered ++ [c] }
  else if e.randomAccess then { b with probed := b.probed ++ [c] }
  else if e.isPredicate then { b with tests := b.tests ++ [c] }
  else { b with collected := b.collected ++ [c] }

/-- A single seekable set has no partner to seek in; it is read with the ordered ones. -/
def settle (b : Buckets) : Buckets :=
  match b.seekable with
  | [single] => { b with seekable := [], ordered := single :: b.ordered }
  | _ => b

end Buckets

namespace Planner

/-- The condition that is planned in place of the given one. -/
def prepare (p : Planner) (c : Condition) : Except QueryError Condition :=
  c.toNormalForm.simplify p.graph.store

/-- Every atom, if the configuration allows it. -/
def fullScan (p : Planner) (c : Condition) : Except QueryError Plan :=
  if p.config.allowFullScan then .ok .fullScan
  else .error (.plan (.fullScanDisabled (c.text p.graph.catalog)))

/-- Every atom that passes the condition. -/
def filteredFullScan (p : Planner) (c : Condition) (cost : Double) : Except QueryError Plan := do
  return .filtered (← p.fullScan c) [.predicate c cost]

/-- A comparison of the values of a type: from the index if there is one, or else atom by atom. -/
def typedValue (p : Planner) (c : Condition) (ty : AtomId) (literal : Value) (op : Comparison) (cost : Double) :
    Except QueryError Plan := do
  match ← p.graph.store.valueLookup ty op with
  | some index => return .indexLookup index literal op
  | none => return .filtered (.typeScan ty) [.predicate c cost]

/-- A link pattern: the links that point at all the atoms it names, and among them those that match. -/
def linkPattern (p : Planner) (c : Condition) (pattern : List Target) : Except QueryError Plan := do
  if pattern.isEmpty then return .empty
  let cost := (← c.estimate p.graph).cost
  match LinkPattern.concrete pattern with
  | [] => p.filteredFullScan c cost
  | id :: ids =>
    let base := ids.foldl (fun plan id => .zigZag plan (.incidence id)) (.incidence id)
    return .filtered base [.predicate c cost]

/-- The plan of a condition that is not made of others. -/
def planLeaf (p : Planner) (c : Condition) : Except QueryError Plan := do
  let s := p.graph.store
  match c with
  | .nothing => return .empty
  | .any => p.fullScan c
  | .ofType ty => return .typeScan (← ty.resolve s)
  | .ofTypePlus ty => return .unionAll ((← s.subtypes (← ty.resolve s)).map .typeScan)
  | .value literal op =>
    let e ← c.estimate p.graph
    match s.typeOfValue literal with
    | some ty => p.typedValue c ty literal op e.cost
    | none => p.filteredFullScan c e.cost
  | .typedValue ty literal op =>
    let e ← c.estimate p.graph
    p.typedValue c (← ty.resolve s) literal op e.cost
  | .indexedPart ty _ index literal op =>
    if !op.isRange || index.isOrdered then return .indexLookup index literal op
    else return .filtered (.typeScan ty) [.predicate c (← c.estimate p.graph).cost]
  | .incident id => return .incidence id
  | .link pattern => p.linkPattern c pattern
  | .orderedLink pattern => p.linkPattern c pattern
  | .targetOf id => return .targetSet id
  | .walk w => return .traversal w
  | .subsumes _ | .subsumed _ =>
    match c.subsumptionWalk? p.config.visitOrder with
    | some w => return .traversal w
    | none => .error (.plan (.notTranslatable (c.text p.graph.catalog)))
  | c =>
    let e ← c.estimate p.graph
    if e.isPredicate then p.filteredFullScan c e.cost
    else .error (.plan (.notTranslatable (c.text p.graph.catalog)))

/-- Intersects plans with what there is of a base. -/
def intersect (merge : Plan → Plan → Plan) (base : Option Plan) : List Conjunct → Except QueryError (Option Plan)
  | [] => return base
  | c :: rest => do
    let plan ← c.plan
    intersect merge (some (match base with
      | some left => merge left plan
      | none => plan)) rest

/-- The plan that enumerates the candidates of a conjunction without ordered conjuncts, and the buckets without the
conjunct it was taken from: the smallest set to collect, the cheapest set to probe, or every atom. -/
def chooseBase (p : Planner) (c : Condition) (b : Buckets) : Except QueryError (Plan × Buckets) := do
  match Conjunct.takeLeast Conjunct.expectsFewer b.collected with
  | some (least, others) => return (← least.plan, { b with collected := others })
  | none =>
    match Conjunct.takeLeast Conjunct.testsCheaper b.probed with
    | some (least, others) => return (← least.plan, { b with probed := others })
    | none => return (← p.fullScan c, b)

/-- The steps that filter the candidates of a conjunction: tests and probes by their cost, then collected sets. -/
def steps (b : Buckets) : Except QueryError (List FilterStep) := do
  let tests := b.tests.map fun c => FilterStep.predicate c.condition c.testCost
  let probes ← b.probed.mapM fun c => return FilterStep.membership (← c.plan) c.testCost
  let sorted := (tests ++ probes).mergeSort fun x y => x.cost.totalCompare y.cost != .gt
  let collected ← b.collected.mapM fun c => return FilterStep.materialized (← c.plan)
  return sorted ++ collected

/-- The plan of a conjunction from its conjuncts. -/
def planConjunction (p : Planner) (c : Condition) (conjuncts : List Conjunct) : Except QueryError Plan := do
  let b := (conjuncts.foldl Buckets.add .empty).settle
  let base ← intersect .zigZag none b.seekable
  let base ← intersect .sortedMerge base b.ordered
  match base with
  | some base => return .filtered base (← steps b)
  | none => do
    let (base, b) ← p.chooseBase c b
    return .filtered base (← steps b)

mutual

/-- The plan of a condition, given how the operands of mappings are planned. -/
def planWith (p : Planner) (planOperand : Condition → Except QueryError Plan) :
    Condition → Except QueryError Plan
  | .or arms => do return .unionAll (← (plansWith p planOperand arms).mapM id)
  | .and conjuncts => do
    let estimates ← Condition.estimates p.graph conjuncts
    let plans := plansWith p planOperand conjuncts
    p.planConjunction (.and conjuncts)
      ((conjuncts.zip (estimates.zip plans)).map fun (c, e, plan) => ⟨c, e, plan⟩)
  | .map operand mapping => do return .map (← planOperand operand) mapping
  | leaf => p.planLeaf leaf

/-- The plans of a list of conditions. -/
def plansWith (p : Planner) (planOperand : Condition → Except QueryError Plan) :
    List Condition → List (Except QueryError Plan)
  | [] => []
  | c :: rest => planWith p planOperand c :: plansWith p planOperand rest

end

/-- The plan of a condition in which mappings are nested at most so deep. -/
def planNested (p : Planner) : Nat → Condition → Except QueryError Plan
  | 0 => p.planWith fun operand => .error (.plan (.notTranslatable (operand.text p.graph.catalog)))
  | depth + 1 => p.planWith fun operand => do p.planNested depth (← p.prepare operand)

/-- The plan of a prepared condition. -/
def plan (p : Planner) (c : Condition) : Except QueryError Plan := p.planNested c.mapDepth c

end Planner

end HyperQuery
