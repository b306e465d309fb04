import HyperQuery.Cursor.Basic
import HyperQuery.Store.Snapshot

/-!
# Cursors over snapshots

The cursor over a fixed list of handles, which all other cursors are built on. It supports every move exactly, but
only arranged lists can be sought.
-/

namespace HyperQuery

/-- A cursor over a snapshot. -/
structure SnapshotCursor where
  snapshot : Snapshot
  position : Position
  closed : Bool

namespace SnapshotCursor

def start (s : Snapshot) : SnapshotCursor := ⟨s, .beforeFirst, false⟩

def items (c : SnapshotCursor) : List AtomId := c.snapshot.items

def ensureOpen : Move SnapshotCursor Unit := fun c =>
  (if c.closed then Metered.fail .cursorClosed else pure (), c)

def moveTo (p : Position) : Move SnapshotCursor Unit := Move.update fun c => { c with position := p }

def hasNext : Move SnapshotCursor Bool := fun c =>
  (pure (!c.closed && c.position.following?.any fun i => decide (i < c.items.length)), c)

def next : Move SnapshotCursor (Option AtomId) := do
  ensureOpen
  let c ← Move.read
  match c.position.following? with
  | none => return none
  | some i =>
    match c.items[i]? with
    | some x =>
      moveTo (.on i)
      return some x
    | none =>
      moveTo .afterLast
      return none

def hasPrev : Move SnapshotCursor Bool := fun c =>
  (pure (!c.closed && (c.position.preceding? c.items.length).isSome), c)

def prev : Move SnapshotCursor (Option AtomId) := do
  ensureOpen
  let c ← Move.read
  match c.position.preceding? c.items.length with
  | some i =>
    moveTo (.on i)
    return c.items[i]?
  | none =>
    moveTo .beforeFirst
    return none

def current (c : SnapshotCursor) : Except QueryError AtomId :=
  if c.closed then .error .cursorClosed
  else
    match c.position.element? c.items with
    | some x => .ok x
    | none => .error .noCurrentElement

/-- Goes to an index and reports how. -/
def land (index : Nat) (landing : Landing) : Move SnapshotCursor Landing := do
  moveTo (.on index)
  return landing

def goTo (key : AtomId) (exact : Bool) : Move SnapshotCursor Landing := do
  ensureOpen
  let c ← Move.read
  match c.snapshot.arrangement with
  | .unordered => Move.fail (.unsupported .goToOnUnordered)
  | .hashed =>
    if !exact then Move.fail (.unsupported .closestOnHashed)
    else
      match c.items.idxOf? key with
      | some i => land i .found
      | none => return .absent
  | .sorted =>
    let i := c.items.findIdx fun x => decide (key ≤ x)
    match c.items[i]? with
    | none => return .absent
    | some x => if x = key then land i .found else if exact then return .absent else land i .closest

/-- The moves of a cursor over a snapshot. -/
def navigation : Navigation SnapshotCursor where
  hasNext := hasNext
  next := next
  hasPrev := hasPrev
  prev := prev
  current := current
  close := fun c => { c with closed := true }
  isOrdered := fun c => c.snapshot.arrangement == .sorted
  isRandomAccess := fun c => c.snapshot.arrangement != .unordered
  goTo := goTo
  beforeFirst := do
    ensureOpen
    moveTo .beforeFirst
  afterLast := do
    ensureOpen
    moveTo .afterLast
  capacity := fun c => c.items.length

end SnapshotCursor

end HyperQuery
