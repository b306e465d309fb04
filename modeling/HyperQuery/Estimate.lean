import HyperQuery.Condition.Eval

/-!
# Estimates

What can be said about the results of a condition without looking for them: whether they come in order, whether they
can be sought, how many there are, and what it costs to test one atom.
-/

namespace HyperQuery

/-- What is known about the results of a condition. -/
structure Estimate where
  /-- Results come in ascending order. -/
  ordered : Bool
  /-- Results can be sought. -/
  randomAccess : Bool
  lower : Nat
  upper : Nat
  expected : Nat
  /-- The cost of testing one atom, or `Estimate.notTestable`. -/
  cost : Double
  /-- The condition can only be used to test atoms. -/
  predicateOnly : Bool
  deriving DecidableEq

namespace Estimate

/-- The cost that marks a condition that cannot be tested on one atom. -/
def notTestable : Double := -Double.ofNat 1

/-- Whether the condition can be tested on one atom. -/
def isPredicate (e : Estimate) : Bool := e.cost.isNonnegative

/-- Whether the bounds determine the number of results. -/
def isExact (e : Estimate) : Bool := e.lower == e.upper

/-! ### Costs of testing one atom -/

def typeCost : Double := Double.ratio 1 2
def typePlusCost : Double := Double.ofNat 3
def valueCost : Double := Double.ofNat 1
def partCost : Double := Double.ofNat 2
def incidenceCost : Double := Double.ofNat 1
def linkCost : Double := Double.ratio 3 2
def targetCost : Double := Double.ofNat 1

/-! ### Shapes of results -/

/-- Ordered results that can be sought, between two bounds. -/
def seekable (cost : Double) (lower upper : Nat) : Estimate := ⟨true, true, lower, upper, upper, cost, false⟩

/-- Ordered results that can be sought, of known number. -/
def exact (cost : Double) (size : Nat) : Estimate := seekable cost size size

/-- Unordered results that can be sought, of known number. -/
def probed (cost : Double) (size : Nat) : Estimate := { exact cost size with ordered := false }

/-- Ordered results that have to be read one by one. -/
def orderedScan (cost : Double) (upper : Nat) : Estimate := ⟨true, false, 0, upper, upper / 2, cost, false⟩

/-- Unordered results that have to be read one by one. -/
def unordered (cost : Double) (upper : Nat) : Estimate := ⟨false, false, 0, upper, upper / 2, cost, false⟩

/-- A mere test. -/
def test (cost : Double) (upper : Nat) : Estimate := { unordered cost upper with predicateOnly := true }

/-- The sum of two costs, unless one of them marks something that cannot be tested. -/
def addCost (a b : Double) : Double := if a.isNonnegative && b.isNonnegative then a + b else notTestable

/-- Takes one more condition into a conjunction. -/
def meet (a b : Estimate) : Estimate :=
  { ordered := a.ordered && b.ordered
    randomAccess := a.randomAccess && b.randomAccess
    lower := 0
    upper := min a.upper b.upper
    expected := min a.expected b.expected
    cost := addCost a.cost b.cost
    predicateOnly := a.predicateOnly && b.predicateOnly }

/-- Takes one more condition into a disjunction. -/
def join (a b : Estimate) : Estimate :=
  { ordered := a.ordered && b.ordered
    randomAccess := a.randomAccess && b.randomAccess
    lower := max a.lower b.lower
    upper := a.upper + b.upper
    expected := a.expected + b.expected
    cost := addCost a.cost b.cost
    predicateOnly := a.predicateOnly && b.predicateOnly }

/-- The estimate of a conjunction of conditions with the given estimates over `total` atoms. -/
def conjunction (total : Nat) : List Estimate → Estimate
  | [] => exact .zero total
  | es@(e :: _) => es.foldl meet ⟨true, true, 0, e.upper, e.expected, .zero, true⟩

/-- The estimate of a disjunction of conditions with the given estimates over `total` atoms. -/
def disjunction (total : Nat) : List Estimate → Estimate
  | [] => exact .zero 0
  | es =>
    let sum := es.foldl join ⟨true, true, 0, 0, 0, .zero, true⟩
    let upper := max (min sum.upper total) sum.lower
    { sum with
      upper
      expected := min sum.expected upper
      cost := if sum.isPredicate then sum.cost / Double.ofNat es.length else sum.cost }

end Estimate

/-- The index that answers a comparison of the values of a type, if the type offers the comparison. -/
def Store.valueLookup (s : Store) (ty : AtomId) (op : Comparison) : Except QueryError (Option IndexHandle) := do
  let d ← s.descriptor ty
  if d.search.supports op then return (s.valueIndex? ty).filter fun index => !op.isRange || index.isOrdered
  else return none

namespace Condition

/-- The estimate of a comparison of the values of a type. -/
def estimateTypedValue (s : Store) (ty : AtomId) (literal : Value) (op : Comparison) :
    Except QueryError Estimate := do
  let size := s.typeCount ty
  match ← s.valueLookup ty op with
  | some index =>
    if op == .eq then return .exact Estimate.valueCost (index.countKey s literal)
    else return { Estimate.seekable Estimate.valueCost 0 size with expected := size / 3 }
  | none => return .orderedScan Estimate.valueCost size

/-- The estimate of a comparison answered from an index over parts. -/
def estimateIndexedPart (s : Store) (index : IndexHandle) (literal : Value) (op : Comparison) : Estimate :=
  if !op.isRange then
    if index.sortedPostings then .exact Estimate.partCost (index.countKey s literal)
    else .probed Estimate.partCost (index.countKey s literal)
  else if index.isOrdered then .seekable Estimate.partCost 0 (index.count s)
  else .orderedScan Estimate.partCost (index.count s)

/-- The estimate of a link pattern: at most as many links as point at any of its atoms. -/
def estimateLink (s : Store) (pattern : List Target) : Estimate :=
  if pattern.isEmpty then .exact Estimate.linkCost 0
  else
    match LinkPattern.concrete pattern with
    | [] => .orderedScan Estimate.linkCost s.atomCount
    | id :: ids =>
      .seekable Estimate.linkCost 0
        (ids.foldl (fun upper id => min upper (s.incidenceCardinality id)) (s.incidenceCardinality id))

/-- The estimate of a condition that is not made of others. -/
def estimateLeaf (g : Graph) (c : Condition) : Except QueryError Estimate := do
  let s := g.store
  match c with
  | .any => return .exact .zero s.atomCount
  | .ofType ty => return .exact Estimate.typeCost (s.typeCount (← ty.resolve s))
  | .ofTypePlus ty => do
    let below ← s.subtypes (← ty.resolve s)
    return .exact Estimate.typePlusCost (below.flatMap s.byType.ids).length
  | .value literal op => do
    rejectNull literal
    match s.typeOfValue literal with
    | some ty => estimateTypedValue s ty literal op
    | none => return .orderedScan Estimate.valueCost s.atomCount
  | .typedValue ty literal op => do
    rejectNull literal
    estimateTypedValue s (← ty.resolve s) literal op
  | .part _ _ _ => return .test Estimate.partCost s.atomCount
  | .indexedPart _ _ index literal op => return estimateIndexedPart s index literal op
  | .incident id => return .exact Estimate.incidenceCost (s.incidenceCardinality id)
  | .link pattern => return estimateLink s pattern
  | .orderedLink pattern => return estimateLink s pattern
  | .targetOf id => do
    let link ← s.atom id
    return .exact Estimate.targetCost (AtomSet.ofList link.targets).length
  | .subsumes _ | .subsumed _ | .walk _ => return .unordered Estimate.notTestable s.atomCount
  | .predicate number =>
    return .test (g.catalog.predicate number).cost.clampNonnegative s.atomCount
  | _ => return .exact .zero 0

mutual

/-- The estimate of a condition. It fails for a search by null and for the negation of something that cannot be tested
on one atom. -/
def estimate (g : Graph) : Condition → Except QueryError Estimate
  | .and conjuncts => return .conjunction g.store.atomCount (← estimates g conjuncts)
  | .or arms => return .disjunction g.store.atomCount (← estimates g arms)
  | .not operand => do
    let inner ← estimate g operand
    if inner.isPredicate then return .test inner.cost g.store.atomCount
    else .error (.plan (.notTranslatable (text g.catalog (.not operand))))
  | .map operand _ => do
    let inner ← estimate g operand
    return ⟨false, false, 0, inner.upper, inner.expected, Estimate.notTestable, false⟩
  | leaf => estimateLeaf g leaf

/-- The estimates of a list of conditions. -/
def estimates (g : Graph) : List Condition → Except QueryError (List Estimate)
  | [] => return []
  | c :: rest => return (← estimate g c) :: (← estimates g rest)

end

end Condition

end HyperQuery
