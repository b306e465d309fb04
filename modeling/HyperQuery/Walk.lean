import HyperQuery.Store.Scan

/-!
# Walks

A walk starts at an atom and goes on along links. Position 0 of a link is its source, every later position a
destination; the direction says which positions lead to neighbours. `Walk.neighbours` is one step of a walk and
`Walk.reachable` the set of everything it reaches.
-/

namespace HyperQuery

/-- The order in which a walk visits atoms. -/
inductive VisitOrder
  | breadthFirst
  | depthFirst
  deriving DecidableEq

def VisitOrder.text : VisitOrder → String
  | .breadthFirst => "bfs"
  | .depthFirst => "dfs"

/-- Which positions of a link lead from an atom to its neighbours. -/
inductive Direction
  /-- From the source to the destinations. -/
  | outward
  /-- From a destination to the source. -/
  | inward
  /-- From any position to all others. -/
  | both
  deriving DecidableEq

def Direction.text : Direction → String
  | .outward => "out"
  | .inward => "in"
  | .both => "both"

/-- A walk through the graph. -/
structure Walk where
  start : AtomId
  /-- The type of the links that are followed; every link is if there is none. -/
  via : Option AtomId
  direction : Direction
  order : VisitOrder
  /-- Whether the start is part of the result. -/
  includeStart : Bool
  deriving DecidableEq

namespace Walk

def text (w : Walk) : String :=
  let via := match w.via with
    | some ty => " via " ++ AtomId.text ty
    | none => ""
  "traverse(" ++ AtomId.text w.start ++ " " ++ w.direction.text ++ via ++ " " ++ w.order.text
    ++ (if w.includeStart then " +start" else "") ++ ")"

/-- Where one link leads from an atom. -/
def across (w : Walk) (id : AtomId) (link : Atom) : List AtomId :=
  if w.via.any fun ty => ty != link.type then []
  else
    match link.targets with
    | [] => []
    | source :: rest =>
      match w.direction with
      | .outward => if source = id then rest else []
      | .inward => if rest.contains id then [source] else []
      | .both => link.targets.filter fun target => target != id

/-- The neighbours of an atom, link by link. Reading the links counts as a scan. -/
def neighbours (w : Walk) (s : Store) (id : AtomId) : Metered (List AtomId) := do
  let links ← s.incidenceSet id
  let links ← (links.items.mapM s.atom : Except QueryError (List Atom))
  return links.flatMap (w.across id)

/-- Everything the walk reaches, in ascending order. -/
def reachable (w : Walk) (s : Store) : Metered (List AtomId) := do
  let found ← closure (w.neighbours s) s.closureFuel [w.start] [w.start]
  let all := AtomSet.ofList found
  return if w.includeStart then all else all.filter fun id => id != w.start

end Walk

end HyperQuery
