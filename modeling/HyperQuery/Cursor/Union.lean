import HyperQuery.Cursor.Basic

/-!
# Unions

The elements of two cursors, each once. If both are ordered their heads are merged; otherwise the left cursor is read
out before the right one, and elements seen before are skipped.
-/

namespace HyperQuery

/-- How a union is read. -/
inductive UnionMode
  /-- By merging the heads of both sides, which are read at the first pull. -/
  | merge (leftHead rightHead : Option AtomId) (primed : Bool)
  /-- One side after the other; what was yielded already, and whether the left side is read out. -/
  | concat (yielded : List AtomId) (onRight : Bool)

/-- The two sides of a union and how far it has been read. -/
structure UnionState (σ τ : Type) where
  left : σ
  right : τ
  mode : UnionMode

namespace UnionState

variable {σ τ : Type} (l : Navigation σ) (r : Navigation τ)

/-- The union of two cursors that have just been opened. -/
def start (left : σ) (right : τ) : UnionState σ τ :=
  ⟨left, right,
    if l.isOrdered left && r.isOrdered right then .merge none none false else .concat [] false⟩

def onLeft {α : Type} (m : Move σ α) : Move (UnionState σ τ) α :=
  Move.onPart UnionState.left (fun s u => { u with left := s }) m

def onRight {α : Type} (m : Move τ α) : Move (UnionState σ τ) α :=
  Move.onPart UnionState.right (fun s u => { u with right := s }) m

def setMode (mode : UnionMode) : Move (UnionState σ τ) Unit := Move.update fun u => { u with mode }

/-- Reads both heads at the first pull. -/
def prime (leftHead rightHead : Option AtomId) (primed : Bool) :
    Move (UnionState σ τ) (Option AtomId × Option AtomId) := do
  if primed then return (leftHead, rightHead)
  else
    let x ← onLeft l.next
    setMode (.merge x rightHead false)
    let y ← onRight r.next
    setMode (.merge x y true)
    return (x, y)

/-- Yields the left head, and reads the next one. -/
def takeLeft (x : AtomId) (rightHead : Option AtomId) : Move (UnionState σ τ) (Option AtomId) := do
  setMode (.merge (← onLeft l.next) rightHead true)
  return some x

/-- Yields the right head, and reads the next one. -/
def takeRight (leftHead : Option AtomId) (y : AtomId) : Move (UnionState σ τ) (Option AtomId) := do
  setMode (.merge leftHead (← onRight r.next) true)
  return some y

/-- Yields a head that both sides have, and reads the next ones. -/
def takeBoth (x : AtomId) : Move (UnionState σ τ) (Option AtomId) := do
  let next ← onLeft l.next
  setMode (.merge next (some x) true)
  setMode (.merge next (← onRight r.next) true)
  return some x

/-- Yields the smaller head. -/
def pullMerged (leftHead rightHead : Option AtomId) : Move (UnionState σ τ) (Option AtomId) :=
  match leftHead, rightHead with
  | none, none => return none
  | some x, none => takeLeft l x none
  | none, some y => takeRight r none y
  | some x, some y =>
    match compare x y with
    | .lt => takeLeft l x (some y)
    | .gt => takeRight r (some x) y
    | .eq => takeBoth l r x

/-- Yields the next element that was not yielded before. -/
def pullNew : Nat → List AtomId → Bool → Move (UnionState σ τ) (Option AtomId)
  | 0, _, _ => return none
  | fuel + 1, yielded, onRightSide => do
    let found ← if onRightSide then onRight r.next else onLeft l.next
    match found with
    | some x =>
      if yielded.contains x then pullNew fuel yielded onRightSide
      else
        setMode (.concat (x :: yielded) onRightSide)
        return some x
    | none =>
      if onRightSide then return none
      else
        setMode (.concat yielded true)
        pullNew fuel yielded true

def capacity (u : UnionState σ τ) : Nat := l.capacity u.left + r.capacity u.right + 2

def pull : Move (UnionState σ τ) (Option AtomId) := do
  let u ← Move.read
  match u.mode with
  | .merge leftHead rightHead primed =>
    let (x, y) ← prime l r leftHead rightHead primed
    pullMerged l r x y
  | .concat yielded onRightSide => pullNew l r (capacity l r u) yielded onRightSide

def seek (key : AtomId) : Move (UnionState σ τ) (Option AtomId) := do
  match (← Move.read).mode with
  | .concat _ _ => Move.fail (.unsupported .seekOnUnorderedUnion)
  | .merge _ rightHead primed =>
    let x ← onLeft (l.seekFrom key)
    setMode (.merge x rightHead primed)
    let y ← onRight (r.seekFrom key)
    setMode (.merge x y true)
    pull l r

def rewind : Move (UnionState σ τ) Unit := do
  onLeft l.beforeFirst
  onRight r.beforeFirst
  match (← Move.read).mode with
  | .merge leftHead rightHead _ => setMode (.merge leftHead rightHead false)
  | .concat _ _ => setMode (.concat [] false)

def close (u : UnionState σ τ) : UnionState σ τ :=
  { left := l.close u.left
    right := r.close u.right
    mode := match u.mode with
      | .merge leftHead rightHead primed => .merge leftHead rightHead primed
      | .concat _ onRightSide => .concat [] onRightSide }

def isMerge (u : UnionState σ τ) : Bool :=
  match u.mode with
  | .merge _ _ _ => true
  | .concat _ _ => false

/-- The union of two cursors. -/
def producer : Producer (UnionState σ τ) where
  pull := pull l r
  seek := seek l r
  rewind := rewind l r
  close := close l r
  isOrdered := isMerge
  isRandomAccess := fun u => isMerge u && l.isRandomAccess u.left && r.isRandomAccess u.right
  capacity := capacity l r

end UnionState

end HyperQuery
