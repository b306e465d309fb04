import HyperQuery.Condition.NormalForm

/-!
# Simplification

A conjunction is sorted into slots (`Conjunction`): required types, comparisons of values and of parts, and the rest,
each without repeats. Two required types, or two equalities that no value satisfies together, make it `nothing`.
Otherwise it is written out again with comparisons of values bound to the type, and comparisons of parts bound to the
indexes that cover them. Disjunctions lose their empty arms.
-/

namespace HyperQuery

/-- A comparison with a literal. -/
structure Constraint where
  literal : Value
  op : Comparison

namespace Constraint

instance : BEq Constraint := ⟨fun a b => a.literal == b.literal && a.op == b.op⟩

/-- Whether the constraints are equalities with literals that are not equal to each other. -/
def conflicts (a b : Constraint) : Bool :=
  a.op == .eq && b.op == .eq && a.literal.partialCompare b.literal != some .eq

end Constraint

/-- The conjuncts of a conjunction, sorted by what they constrain. -/
structure Conjunction where
  /-- The types required, by name or handle or by a literal's default type. -/
  types : List AtomId
  /-- Whether a type was required by itself. -/
  explicitType : Bool
  values : List Constraint
  parts : List (String × Constraint)
  others : List Condition

namespace Conjunction

def empty : Conjunction := ⟨[], false, [], [], []⟩

/-- Adds an element at the end of a list, unless it is there. -/
def addNew {α : Type} [BEq α] (x : α) (xs : List α) : List α := if xs.contains x then xs else xs ++ [x]

def requireType (k : Conjunction) (ty : AtomId) : Conjunction := { k with types := addNew ty k.types }

def addValue (k : Conjunction) (literal : Value) (op : Comparison) : Conjunction :=
  { k with values := addNew ⟨literal, op⟩ k.values }

def addPart (k : Conjunction) (path : String) (literal : Value) (op : Comparison) : Conjunction :=
  { k with parts := addNew (path, ⟨literal, op⟩) k.parts }

def addOther (k : Conjunction) (c : Condition) : Conjunction := { k with others := addNew c k.others }

/-- Sorts in a condition that is neither a conjunction nor a disjunction; none if it matches nothing. Searches by null
are kept as they are, to be refused later. -/
def addLeaf (s : Store) (k : Conjunction) (c : Condition) : Except QueryError (Option Conjunction) :=
  match c with
  | .nothing => return none
  | .any => return some k
  | .ofType ty => do
    let id ← ty.resolve s
    return some { k.requireType id with explicitType := true }
  | .typedValue ty literal op =>
    if literal.isNull then return some (k.addOther c)
    else do
      let id ← ty.resolve s
      return some ((k.requireType id).addValue literal op)
  | .value literal op =>
    if literal.isNull then return some (k.addOther c)
    else
      let typed := match s.typeOfValue literal with
        | some ty => k.requireType ty
        | none => k
      return some (typed.addValue literal op)
  | .part path literal op => return some (k.addPart path literal op)
  | c => return some (k.addOther c)

/-- Whether two of the constraints conflict. -/
def anyConflict : List Constraint → Bool
  | [] => false
  | c :: rest => rest.any c.conflicts || anyConflict rest

/-- Whether no value of one type can satisfy the conjunction. -/
def isContradictory (k : Conjunction) : Bool := decide (1 < k.types.length) || anyConflict k.values

/-- The index that answers a comparison of a part, for a conjunction that requires the type. -/
def indexFor (s : Store) (ty : Option AtomId) (path : String) (op : Comparison) : Option (AtomId × IndexHandle) := do
  let ty ← ty
  let index ← s.partIndex? ty path
  if !op.isRange || index.isOrdered then some (ty, index) else none

/-- The parts that are answered from an index, as conditions with their paths. -/
def indexedParts (s : Store) (k : Conjunction) : List (String × Condition) :=
  k.parts.filterMap fun (path, c) =>
    (indexFor s k.types.head? path c.op).map fun (ty, index) =>
      (path, Condition.indexedPart ty path index c.literal c.op)

/-- The parts that are not answered from an index, as conditions. -/
def plainParts (s : Store) (k : Conjunction) : List Condition :=
  k.parts.filterMap fun (path, c) =>
    match indexFor s k.types.head? path c.op with
    | some _ => none
    | none => some (Condition.part path c.literal c.op)

/-- The constraints on type and value as conditions. An explicit type is left out if every dimension of it is compared
through an index, since those indexes hold atoms of the type only. -/
def typeAndValues (s : Store) (k : Conjunction) (indexed : List (String × Condition)) :
    Except QueryError (List Condition) :=
  match k.types.head? with
  | none => return k.values.map fun c => Condition.value c.literal c.op
  | some ty =>
    if k.values.isEmpty then do
      let d ← s.descriptor ty
      let covered := !d.dimensions.isEmpty
        && d.dimensions.all fun dimension => indexed.any fun part => part.1 == dimension
      return if k.explicitType && !covered then [Condition.ofType (.handle ty)] else []
    else return k.values.map fun c => Condition.typedValue (.handle ty) c.literal c.op

/-- Writes the conjunction out again. -/
def toCondition (s : Store) (k : Conjunction) : Except QueryError Condition := do
  let indexed := k.indexedParts s
  let first ← k.typeAndValues s indexed
  return Condition.conjunction (first ++ indexed.map Prod.snd ++ k.plainParts s ++ k.others)

end Conjunction

namespace Condition

/-- The arms that simplified conditions contribute to a disjunction. -/
def spread : Condition → List Condition
  | .nothing => []
  | .or arms => arms
  | c => [c]

mutual

/-- Sorts a condition into a conjunction; none if nothing matches. -/
def absorb (s : Store) (k : Conjunction) : Condition → Except QueryError (Option Conjunction)
  | .and conjuncts => absorbAll s k conjuncts
  | .or arms => do
    match disjunction (← simplifyArms s arms) with
    | .nothing => return none
    | c => return some (k.addOther c)
  | leaf => k.addLeaf s leaf

/-- Sorts the conditions of a list into a conjunction, up to the first one with which nothing matches. -/
def absorbAll (s : Store) (k : Conjunction) : List Condition → Except QueryError (Option Conjunction)
  | [] => return some k
  | c :: rest => do
    match ← absorb s k c with
    | some k => absorbAll s k rest
    | none => return none

/-- The simplified arms of a disjunction, flattened and without empty ones. -/
def simplifyArms (s : Store) : List Condition → Except QueryError (List Condition)
  | [] => return []
  | c :: rest => do
    let first ← simplify s c
    return first.spread ++ (← simplifyArms s rest)

/-- The simplified condition. Everything but a conjunction or a disjunction is left as it is. -/
def simplify (s : Store) : Condition → Except QueryError Condition
  | .and conjuncts => do
    match ← absorbAll s .empty conjuncts with
    | some k => if k.isContradictory then return .nothing else k.toCondition s
    | none => return .nothing
  | .or arms => return disjunction (← simplifyArms s arms)
  | c => return c

end

end Condition

end HyperQuery
