import HyperQuery.Store.Index

/-!
# Scans and closures

The scans a store offers, each of which is counted, and the closure of a set of handles under a successor function,
which gives the subtypes of a type.
-/

namespace HyperQuery

/-- Adds the new ones among `found` to the handles seen and to those still to be expanded. -/
def discover : List AtomId → List AtomId × List AtomId → List AtomId × List AtomId
  | [], acc => acc
  | x :: found, (seen, pending) =>
    discover found (if seen.contains x then (seen, pending) else (x :: seen, x :: pending))

/-- Every handle that can be reached from those pending, with those seen before. At most `fuel` handles are
expanded. -/
def closure (next : AtomId → Metered (List AtomId)) : Nat → List AtomId → List AtomId → Metered (List AtomId)
  | 0, seen, _ => pure seen
  | _ + 1, seen, [] => pure seen
  | fuel + 1, seen, id :: pending => do
    let found ← next id
    let (seen, pending) := discover found (seen, pending)
    closure next fuel seen pending

namespace Store

/-- Hands out handles in order, which counts as a scan. -/
def opened (ids : List AtomId) : Metered Snapshot := do
  Metered.spend .oneScan
  return .sorted ids

/-- Every atom. -/
def scanAll (s : Store) : Metered Snapshot := opened (s.atoms.toList.map Atom.id)

/-- The atoms of exactly the given type. -/
def typeScan (s : Store) (ty : AtomId) : Metered Snapshot := opened (s.byType.ids ty)

/-- The links that point at an atom. -/
def incidenceSet (s : Store) (id : AtomId) : Metered Snapshot := opened (s.incidence.ids id)

/-- The types that subsumption links place directly below a type. -/
def directSubtypes (s : Store) (ty : AtomId) : Except QueryError (List AtomId) := do
  let links ← (s.incidence.ids ty).mapM s.atom
  return links.flatMap fun link =>
    match link.targets with
    | general :: specifics => if link.type = subsumesType ∧ general = ty then specifics else []
    | [] => []

/-- A bound on how many handles a closure over the links of the store expands: the start and every atom. -/
def closureFuel (s : Store) : Nat := s.atoms.size + 2

/-- The types at or below a type, in ascending order. -/
def subtypes (s : Store) (ty : AtomId) : Except QueryError (List AtomId) := do
  let _ ← s.descriptor ty
  let found ← (closure (fun t => Metered.ofExcept (s.directSubtypes t)) s.closureFuel [ty] [ty]).answer
  return AtomSet.ofList found

end Store

end HyperQuery
