import HyperQuery.Condition.Eval
import HyperQuery.Cursor.Buffered
import HyperQuery.Cursor.Filter
import HyperQuery.Cursor.Frontier
import HyperQuery.Cursor.Intersection
import HyperQuery.Cursor.Snapshot
import HyperQuery.Cursor.Union

/-!
# Blueprints of cursors

A blueprint says how a cursor is put together. `Blueprint.State` is the state of such a cursor and `Blueprint.access`
how it is opened and moved, given the graph as it is at that moment: snapshots are taken when the cursor is opened, but
walks, tests and mappings read the graph whenever the cursor is moved. `Cursor` is a blueprint with a state.
-/

namespace HyperQuery

/-- What a snapshot is taken of. -/
inductive Reading
  | nothing
  | everything
  | ofType (ty : AtomId)
  | lookup (index : IndexHandle) (key : Value) (op : Comparison)
  | incident (id : AtomId)
  | targets (link : AtomId)
  /-- A snapshot supplied by the caller. -/
  | given (snapshot : Snapshot)

/-- Takes the snapshot. -/
def Reading.take (s : Store) : Reading → Metered Snapshot
  | .nothing => pure .empty
  | .everything => s.scanAll
  | .ofType ty => s.typeScan ty
  | .lookup index key op => index.findRange s op key
  | .incident id => s.incidenceSet id
  | .targets link => do return .sorted (← s.atom link).targets
  | .given snapshot => pure snapshot

mutual

/-- How a cursor is put together. -/
inductive Blueprint
  | reading (r : Reading)
  /-- A cursor that hides that another one can be sought. -/
  | forwardOnly (inner : Blueprint)
  | zigZag (left right : Blueprint)
  | sortedMerge (left right : Blueprint)
  | union (left right : Blueprint)
  | filter (base : Blueprint) (checks : List Check)
  | map (base : Blueprint) (mapping : Mapping)
  | walk (w : Walk)

/-- A test in a filter. -/
inductive Check
  /-- The condition holds for the candidate. -/
  | point (condition : Condition)
  /-- The candidate is found by a cursor. -/
  | member (inner : Blueprint)
  /-- The candidate is in the set of elements of a cursor, which is limited in size. -/
  | gather (inner : Blueprint) (limit : Option Nat)

end

mutual

/-- The state of a cursor. -/
def Blueprint.State : Blueprint → Type
  | .reading _ => SnapshotCursor
  | .forwardOnly inner => inner.State
  | .zigZag left right => Buffered (left.State × right.State)
  | .sortedMerge left right => Buffered (left.State × right.State)
  | .union left right => Buffered (UnionState left.State right.State)
  | .filter base checks => Buffered (base.State × Check.States checks)
  | .map base _ => Buffered base.State
  | .walk _ => Buffered Frontier

/-- The state of a test. -/
def Check.State : Check → Type
  | .point _ => Unit
  | .member inner => Option inner.State
  | .gather _ _ => Option (List AtomId)

/-- The states of tests. -/
def Check.States : List Check → Type
  | [] => Unit
  | check :: rest => check.State × Check.States rest

end

mutual

/-- The state of a test before the first candidate. -/
def Check.initial : (check : Check) → check.State
  | .point _ => ()
  | .member _ => none
  | .gather _ _ => none

/-- The states of tests before the first candidate. -/
def Check.initials : (checks : List Check) → Check.States checks
  | [] => ()
  | check :: rest => (check.initial, Check.initials rest)

end

/-- The number of ends of links in the store, which bounds how many atoms a walk can find. -/
def Store.linkEnds (s : Store) : Nat := s.atoms.foldl (fun n a => n + a.targets.length) 0

/-- A navigation that cannot be sought. -/
def Navigation.forwardOnly {σ : Type} (n : Navigation σ) : Navigation σ :=
  { n with
    isRandomAccess := fun _ => false
    goTo := fun _ _ => Move.fail (.unsupported .goToWithoutRandomAccess) }

mutual

/-- How a cursor is opened and moved. -/
def Blueprint.access (g : Graph) : (b : Blueprint) → Access b.State
  | .reading r =>
    { SnapshotCursor.navigation with start := do return .start (← r.take g.store) }
  | .forwardOnly inner =>
    let a := inner.access g
    { a.toNavigation.forwardOnly with start := a.start }
  | .zigZag left right =>
    let l := left.access g
    let r := right.access g
    { Buffered.navigation (Intersection.zigZag l.toNavigation r.toNavigation) with
      start := do return .start (← l.start, ← r.start) }
  | .sortedMerge left right =>
    let l := left.access g
    let r := right.access g
    { Buffered.navigation (Intersection.sortedMerge l.toNavigation r.toNavigation) with
      start := do return .start (← l.start, ← r.start) }
  | .union left right =>
    let l := left.access g
    let r := right.access g
    { Buffered.navigation (UnionState.producer l.toNavigation r.toNavigation) with
      start := do return .start (UnionState.start l.toNavigation r.toNavigation (← l.start) (← r.start)) }
  | .filter base checks =>
    let a := base.access g
    { Buffered.navigation (Filter.producer a.toNavigation (Check.testers g checks)) with
      start := do return .start (← a.start, Check.initials checks) }
  | .map base mapping =>
    let a := base.access g
    { Buffered.navigation (MapEach.producer a.toNavigation fun id => Metered.ofExcept (mapping.apply g id)) with
      start := do return .start (← a.start) }
  | .walk w =>
    { Buffered.navigation
        (Frontier.producer w.order (w.neighbours g.store) w.start w.includeStart g.store.linkEnds) with
      start := pure (.start .start) }

/-- How a test is made. -/
def Check.tester (g : Graph) : (check : Check) → Tester check.State
  | .point condition => .point (condition.satisfies g)
  | .member inner => .member (inner.access g)
  | .gather inner limit => .gather (inner.access g) limit

/-- How tests are made, one after the other. -/
def Check.testers (g : Graph) : (checks : List Check) → Tester (Check.States checks)
  | [] => .always
  | check :: rest => .both (check.tester g) (Check.testers g rest)

end

/-- An open cursor. -/
structure Cursor where
  blueprint : Blueprint
  state : blueprint.State

namespace Cursor

/-- Opens a cursor. -/
def ofBlueprint (g : Graph) (b : Blueprint) : Metered Cursor := do return ⟨b, ← (b.access g).start⟩

/-- Moves a cursor. -/
def run {α : Type} (g : Graph) (move : {σ : Type} → Navigation σ → Move σ α) : Move Cursor α := fun c =>
  let (r, s) := move (c.blueprint.access g).toNavigation c.state
  (r, { c with state := s })

/-- Looks at a cursor. -/
def look {α : Type} (g : Graph) (c : Cursor) (view : {σ : Type} → Navigation σ → σ → α) : α :=
  view (c.blueprint.access g).toNavigation c.state

end Cursor

end HyperQuery
