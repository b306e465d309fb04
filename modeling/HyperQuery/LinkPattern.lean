import HyperQuery.Error

/-!
# Link patterns

A pattern has an entry for every position of a link: an atom, or a wildcard for any atom. It matches the targets of
a link position by position, or in any order.
-/

namespace HyperQuery

/-- One position of a link pattern. -/
inductive Target
  | atom (id : AtomId)
  | any
  deriving DecidableEq

def Target.text : Target → String
  | .atom id => AtomId.text id
  | .any => "_"

namespace LinkPattern

/-- Whether the entry admits an atom. -/
def admits : Target → AtomId → Bool
  | .atom id, x => id == x
  | .any, _ => true

/-- Whether every entry admits the target at its position. The lengths have to agree, and the empty pattern matches
nothing. -/
def matchesInOrder (pattern : List Target) (targets : List AtomId) : Bool :=
  !pattern.isEmpty && targets.length == pattern.length
    && (pattern.zip targets).all fun (want, x) => admits want x

/-- Whether the atoms named in the pattern can be taken out of the targets one after the other. -/
def takeable : List Target → List AtomId → Bool
  | [], _ => true
  | .any :: pattern, targets => takeable pattern targets
  | .atom id :: pattern, targets => targets.contains id && takeable pattern (targets.erase id)

/-- Whether the pattern matches the targets in some order. -/
def matchesInAnyOrder (pattern : List Target) (targets : List AtomId) : Bool :=
  !pattern.isEmpty && targets.length == pattern.length && takeable pattern targets

/-- The distinct atoms a pattern names, in its order. -/
def concrete (pattern : List Target) : List AtomId :=
  (pattern.filterMap fun target => match target with
    | .atom id => some id
    | .any => none).eraseDups

end LinkPattern

end HyperQuery
