import HyperQuery.Store.Scan

/-!
# Graphs with user-defined functions

Conditions can name predicates and mappings that a user has supplied. They are kept in a catalog under numbers, and
the number is the identity: two entries are different even if they do the same. A `Graph` is a store with such a
catalog.
-/

namespace HyperQuery

/-- A test of atoms supplied by a user. -/
structure Predicate where
  name : String
  /-- The relative cost of one test; cheaper tests run first. -/
  cost : Double
  test : Store → Atom → Except QueryError Bool

/-- A mapping of atoms supplied by a user; an atom without an image is dropped. -/
structure CustomMapping where
  name : String
  apply : Store → AtomId → Except QueryError (Option AtomId)

/-- The functions supplied by users, by number. -/
structure Catalog where
  predicate : Nat → Predicate
  mapping : Nat → CustomMapping

/-- A store and the functions conditions over it can name. -/
structure Graph where
  store : Store
  catalog : Catalog

/-- The predicate as shown to a programmer. -/
def Predicate.debugText (p : Predicate) : String := "PredicateHandle(" ++ Text.quoted p.name ++ ")"

/-- The mapping as shown to a programmer. -/
def CustomMapping.debugText (m : CustomMapping) : String := "CustomMapping(" ++ Text.quoted m.name ++ ")"

/-- What is done to each result of a mapped condition. -/
inductive Mapping
  /-- The target of a link at a position, if there is one. -/
  | target (position : Nat)
  /-- The type of the atom. -/
  | typeOf
  /-- The catalog's mapping of that number. -/
  | custom (number : Nat)
  deriving DecidableEq

namespace Mapping

def text (catalog : Catalog) : Mapping → String
  | .target position => "target[" ++ toString position ++ "]"
  | .typeOf => "type_of"
  | .custom number => (catalog.mapping number).name

/-- The image of an atom. -/
def apply (g : Graph) (id : AtomId) : Mapping → Except QueryError (Option AtomId)
  | .target position => return (← g.store.atom id).targets[position]?
  | .typeOf => return some (← g.store.atom id).type
  | .custom number => (g.catalog.mapping number).apply g.store id

end Mapping

end HyperQuery
