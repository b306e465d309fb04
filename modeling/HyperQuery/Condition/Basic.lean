import HyperQuery.Graph
import HyperQuery.LinkPattern
import HyperQuery.Walk

/-!
# Conditions

A condition describes the atoms a query looks for. Leaves constrain the type, the value, the links or the
neighbourhood of an atom; conjunction, disjunction, negation and mapping combine conditions.
-/

namespace HyperQuery

/-- A type given by its handle, or by a name that is looked up when it is needed. -/
inductive TypeRef
  | handle (id : AtomId)
  | named (name : String)
  deriving DecidableEq

namespace TypeRef

def resolve (s : Store) : TypeRef → Except QueryError AtomId
  | .handle id => .ok id
  | .named name => s.typeHandle name

def text : TypeRef → String
  | .handle id => AtomId.text id
  | .named name => name

end TypeRef

/-- What a query looks for. -/
inductive Condition
  /-- Every atom. -/
  | any
  /-- No atom. -/
  | nothing
  /-- Atoms of exactly this type. -/
  | ofType (ty : TypeRef)
  /-- Atoms of this type or a type below it. -/
  | ofTypePlus (ty : TypeRef)
  /-- Atoms of the literal's default type whose value compares so with the literal; without a default type, atoms
  of any type. -/
  | value (literal : Value) (op : Comparison)
  /-- Atoms of the type whose value compares so with the literal. -/
  | typedValue (ty : TypeRef) (literal : Value) (op : Comparison)
  /-- Atoms whose value has a part at the path that compares so with the literal. -/
  | part (path : String) (literal : Value) (op : Comparison)
  /-- The same for atoms of one type, to be answered from an index. -/
  | indexedPart (ty : AtomId) (path : String) (index : IndexHandle) (literal : Value) (op : Comparison)
  /-- Links that point at the atom. -/
  | incident (id : AtomId)
  /-- Links whose targets match the pattern in some order. -/
  | link (pattern : List Target)
  /-- Links whose targets match the pattern position by position. -/
  | orderedLink (pattern : List Target)
  /-- The targets of the link. -/
  | targetOf (id : AtomId)
  /-- Types that subsume the given one, itself included. -/
  | subsumes (id : AtomId)
  /-- Types that the given one subsumes, itself included. -/
  | subsumed (id : AtomId)
  /-- Atoms that a walk reaches. -/
  | walk (w : Walk)
  /-- Atoms that pass the catalog's predicate of that number. -/
  | predicate (number : Nat)
  | and (conjuncts : List Condition)
  | or (arms : List Condition)
  | not (operand : Condition)
  /-- The results of the operand, mapped one by one. -/
  | map (operand : Condition) (mapping : Mapping)

namespace Condition

/-- Whether the condition is a conjunction or a disjunction. -/
def isCombinator : Condition → Bool
  | .and _ => true
  | .or _ => true
  | _ => false

/-! ### Equality -/

mutual

/-- Equality of conditions. Predicates, indexes and user mappings are compared by identity, values by the order of
values. -/
def beq : Condition → Condition → Bool
  | .any, .any => true
  | .nothing, .nothing => true
  | .ofType a, .ofType b => a == b
  | .ofTypePlus a, .ofTypePlus b => a == b
  | .value a p, .value b q => a == b && p == q
  | .typedValue t a p, .typedValue u b q => t == u && a == b && p == q
  | .part x a p, .part y b q => x == y && a == b && p == q
  | .indexedPart t x i a p, .indexedPart u y j b q => t == u && x == y && i == j && a == b && p == q
  | .incident a, .incident b => a == b
  | .link a, .link b => a == b
  | .orderedLink a, .orderedLink b => a == b
  | .targetOf a, .targetOf b => a == b
  | .subsumes a, .subsumes b => a == b
  | .subsumed a, .subsumed b => a == b
  | .walk v, .walk w => v == w
  | .predicate m, .predicate n => m == n
  | .and a, .and b => beqList a b
  | .or a, .or b => beqList a b
  | .not a, .not b => beq a b
  | .map a m, .map b n => beq a b && m == n
  | _, _ => false

/-- Equality of lists of conditions. -/
def beqList : List Condition → List Condition → Bool
  | [], [] => true
  | a :: as, b :: bs => beq a b && beqList as bs
  | _, _ => false

end

instance : BEq Condition := ⟨beq⟩

/-! ### Text -/

/-- A comparison with a literal, after what is compared. -/
def comparisonText (what : String) (op : Comparison) (literal : Value) : String :=
  what ++ " " ++ op.symbol ++ " " ++ literal.text

/-- A link pattern, without its brackets. -/
def patternText (pattern : List Target) : String := ", ".intercalate (pattern.map Target.text)

mutual

/-- The condition as text. -/
def text (catalog : Catalog) : Condition → String
  | .any => "any"
  | .nothing => "nothing"
  | .ofType ty => "type(" ++ ty.text ++ ")"
  | .ofTypePlus ty => "type+(" ++ ty.text ++ ")"
  | .value literal op => comparisonText "value" op literal
  | .typedValue ty literal op => comparisonText ("value:" ++ ty.text) op literal
  | .part path literal op => comparisonText ("part(" ++ path ++ ")") op literal
  | .indexedPart ty path _ literal op =>
    comparisonText ("part:" ++ AtomId.text ty ++ "(" ++ path ++ ")") op literal
  | .incident id => "incident(" ++ AtomId.text id ++ ")"
  | .link pattern => "link\x7b" ++ patternText pattern ++ "\x7d"
  | .orderedLink pattern => "link[" ++ patternText pattern ++ "]"
  | .targetOf id => "target_of(" ++ AtomId.text id ++ ")"
  | .subsumes id => "subsumes(" ++ AtomId.text id ++ ")"
  | .subsumed id => "subsumed(" ++ AtomId.text id ++ ")"
  | .walk w => w.text
  | .predicate number => "pred(" ++ (catalog.predicate number).name ++ ")"
  | .and conjuncts => "and(" ++ ", ".intercalate (texts catalog conjuncts) ++ ")"
  | .or arms => "or(" ++ ", ".intercalate (texts catalog arms) ++ ")"
  | .not operand => "not(" ++ text catalog operand ++ ")"
  | .map operand mapping => "map(" ++ text catalog operand ++ ", " ++ mapping.text catalog ++ ")"

/-- The conditions of a list as texts. -/
def texts (catalog : Catalog) : List Condition → List String
  | [] => []
  | c :: rest => text catalog c :: texts catalog rest

end

/-! ### Nesting of mappings -/

mutual

/-- How deep mappings are nested in the condition. -/
def mapDepth : Condition → Nat
  | .and conjuncts => mapDepths conjuncts
  | .or arms => mapDepths arms
  | .not operand => mapDepth operand
  | .map operand _ => mapDepth operand + 1
  | _ => 0

/-- How deep mappings are nested in a list of conditions. -/
def mapDepths : List Condition → Nat
  | [] => 0
  | c :: rest => max (mapDepth c) (mapDepths rest)

end

end Condition

end HyperQuery
