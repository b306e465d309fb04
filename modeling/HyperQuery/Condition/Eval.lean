import HyperQuery.Condition.Basic

/-!
# Evaluation on one atom

`Condition.eval` decides a condition for one atom. Walks are run in full, which is counted as scans; a mapped
condition cannot be decided this way.
-/

namespace HyperQuery.Condition

/-- A search by null is refused. -/
def rejectNull (literal : Value) : Except QueryError Unit :=
  if literal.isNull then .error (.unsupported .nullSearch) else .ok ()

/-- The walk that a subsumption condition stands for. -/
def subsumptionWalk? (order : VisitOrder) : Condition → Option Walk
  | .subsumed general => some ⟨general, some Store.subsumesType, .outward, order, true⟩
  | .subsumes specific => some ⟨specific, some Store.subsumesType, .inward, order, true⟩
  | _ => none

/-- Whether a walk reaches the atom. -/
def reaches (g : Graph) (a : Atom) (w : Walk) : Metered Bool := do
  return (← w.reachable g.store).contains a.id

/-- Whether the value has a part at the path that satisfies the comparison. -/
def partSatisfies (a : Atom) (path : String) (op : Comparison) (literal : Value) : Bool :=
  (a.value.project path).any fun part => part.satisfies op literal

/-- Decides a condition that is not made of others. -/
def evalLeaf (g : Graph) (a : Atom) (c : Condition) : Metered Bool :=
  match c with
  | .any => pure true
  | .ofType ty => do return a.type == (← ty.resolve g.store)
  | .ofTypePlus ty => do return (← g.store.subtypes (← ty.resolve g.store)).contains a.type
  | .value literal op => do
    rejectNull literal
    if (g.store.typeOfValue literal).any fun ty => ty != a.type then return false
    else return a.value.satisfies op literal
  | .typedValue ty literal op => do
    rejectNull literal
    return a.type == (← ty.resolve g.store) && a.value.satisfies op literal
  | .part path literal op => pure (partSatisfies a path op literal)
  | .indexedPart ty path _ literal op => pure (a.type == ty && partSatisfies a path op literal)
  | .incident id => pure (a.targets.contains id)
  | .link pattern => pure (LinkPattern.matchesInAnyOrder pattern a.targets)
  | .orderedLink pattern => pure (LinkPattern.matchesInOrder pattern a.targets)
  | .targetOf id => do return (← g.store.atom id).targets.contains a.id
  | .walk w => reaches g a w
  | .subsumes _ | .subsumed _ =>
    match c.subsumptionWalk? .breadthFirst with
    | some w => reaches g a w
    | none => pure false
  | .predicate number => Metered.ofExcept ((g.catalog.predicate number).test g.store a)
  | .map _ _ => Metered.fail (.unsupported .pointTestOfMapping)
  | _ => pure false

mutual

/-- Decides the condition for an atom. Conjunctions and disjunctions stop at the first operand that decides them. -/
def eval (g : Graph) (a : Atom) : Condition → Metered Bool
  | .and conjuncts => evalAll g a conjuncts
  | .or arms => evalAny g a arms
  | .not operand => do return !(← eval g a operand)
  | leaf => evalLeaf g a leaf

/-- Whether all conditions hold. -/
def evalAll (g : Graph) (a : Atom) : List Condition → Metered Bool
  | [] => pure true
  | c :: rest => do if ← eval g a c then evalAll g a rest else return false

/-- Whether one of the conditions holds. -/
def evalAny (g : Graph) (a : Atom) : List Condition → Metered Bool
  | [] => pure false
  | c :: rest => do if ← eval g a c then return true else evalAny g a rest

end

/-- Decides the condition for a handle. The trivial conditions do not load the atom. -/
def satisfies (g : Graph) (c : Condition) (id : AtomId) : Metered Bool :=
  match c with
  | .any => pure true
  | .nothing => pure false
  | c => do eval g (← g.store.atom id) c

end HyperQuery.Condition
