import HyperQuery.Cursor.Basic
import HyperQuery.Walk

/-!
# Walking cursors

A walk as a producer: the atoms found and not yet expanded wait in a queue, from which the oldest (breadth first) or the
newest one (depth first) is taken, expanded and yielded.
-/

namespace HyperQuery

/-- How far a walk has got. -/
structure Frontier where
  /-- The atoms waiting, the oldest first. -/
  pending : List AtomId
  visited : List AtomId
  started : Bool

namespace Frontier

def start : Frontier := ⟨[], [], false⟩

/-- Adds atoms that were not visited before. -/
def enlist : List AtomId → Frontier → Frontier
  | [], f => f
  | x :: found, f =>
    enlist found
      (if f.visited.contains x then f else { f with pending := f.pending ++ [x], visited := x :: f.visited })

variable (order : VisitOrder) (neighbours : AtomId → Metered (List AtomId))

/-- Adds the neighbours of an atom. -/
def expand (id : AtomId) : Move Frontier Unit := do
  let found ← neighbours id
  Move.update (enlist found)

/-- Takes the atom that is next out of those waiting. -/
def take? (f : Frontier) : Option (AtomId × Frontier) :=
  match order with
  | .breadthFirst => match f.pending with
    | [] => none
    | x :: rest => some (x, { f with pending := rest })
  | .depthFirst => f.pending.getLast?.map fun x => (x, { f with pending := f.pending.dropLast })

/-- Yields the atom that is next, and adds its neighbours. -/
def step : Move Frontier (Option AtomId) := do
  match (← Move.read).take? order with
  | some (x, f) =>
    Move.update fun _ => f
    expand neighbours x
    return some x
  | none => return none

/-- Begins at the start, and yields it if it is included. -/
def pull (origin : AtomId) (includeStart : Bool) : Move Frontier (Option AtomId) := do
  if (← Move.read).started then step order neighbours
  else
    Move.update fun f =>
      { f with started := true, visited := if f.visited.contains origin then f.visited else origin :: f.visited }
    expand neighbours origin
    if includeStart then return some origin else step order neighbours

/-- The atoms of a walk, with at most `room` atoms to be found. -/
def producer (origin : AtomId) (includeStart : Bool) (room : Nat) : Producer Frontier where
  pull := pull order neighbours origin includeStart
  seek := fun _ => Move.fail (.unsupported .seekWithoutRandomAccess)
  rewind := Move.update fun _ => start
  close := fun f => { f with pending := [], visited := [] }
  isOrdered := fun _ => false
  isRandomAccess := fun _ => false
  capacity := fun f => f.pending.length + room + 2

end Frontier

end HyperQuery
