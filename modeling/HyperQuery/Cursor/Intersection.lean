import HyperQuery.Cursor.Basic

/-!
# Intersections

The elements that two ordered cursors have in common: by seeking in the one that lags behind what the other one has
(`zigZag`), or by reading both side by side (`sortedMerge`).
-/

namespace HyperQuery.Intersection

variable {σ τ : Type} (l : Navigation σ) (r : Navigation τ)

/-- A bound on the steps that bring two cursors together. -/
def fuel (s : σ × τ) : Nat := l.capacity s.1 + r.capacity s.2 + 1

/-- Seeks on in the cursor with the smaller element until both elements are equal. -/
def align : Nat → AtomId → AtomId → Move (σ × τ) (Option AtomId)
  | 0, _, _ => pure none
  | fuel + 1, x, y =>
    match compare x y with
    | .eq => pure (some x)
    | .lt => do
      match ← Move.onFst (l.seekFrom y) with
      | some x => align fuel x y
      | none => return none
    | .gt => do
      match ← Move.onSnd (r.seekFrom x) with
      | some y => align fuel x y
      | none => return none

/-- Reads on in the cursor with the smaller element until both elements are equal. -/
def advance : Nat → AtomId → AtomId → Move (σ × τ) (Option AtomId)
  | 0, _, _ => pure none
  | fuel + 1, x, y =>
    match compare x y with
    | .eq => pure (some x)
    | .lt => do
      match ← Move.onFst l.next with
      | some x => advance fuel x y
      | none => return none
    | .gt => do
      match ← Move.onSnd r.next with
      | some y => advance fuel x y
      | none => return none

def rewind : Move (σ × τ) Unit := do
  Move.onFst l.beforeFirst
  Move.onSnd r.beforeFirst

def close (s : σ × τ) : σ × τ := (l.close s.1, r.close s.2)

/-- The intersection of two cursors that can be sought. -/
def zigZag : Producer (σ × τ) where
  pull := do
    match ← Move.onFst l.next with
    | none => return none
    | some x =>
      match ← Move.onSnd r.next with
      | none => return none
      | some y => align l r (fuel l r (← Move.read)) x y
  seek := fun key => do
    match ← Move.onFst (l.seekFrom key) with
    | none => return none
    | some x =>
      match ← Move.onSnd (r.seekFrom x) with
      | none => return none
      | some y => align l r (fuel l r (← Move.read)) x y
  rewind := rewind l r
  close := close l r
  isOrdered := fun _ => true
  isRandomAccess := fun _ => true
  capacity := fun s => min (l.capacity s.1) (r.capacity s.2)

/-- The intersection of two ordered cursors. -/
def sortedMerge : Producer (σ × τ) where
  pull := do
    let x ← Move.onFst l.next
    let y ← Move.onSnd r.next
    match x, y with
    | some x, some y => advance l r (fuel l r (← Move.read)) x y
    | _, _ => return none
  seek := fun _ => Move.fail (.unsupported .seekWithoutRandomAccess)
  rewind := rewind l r
  close := close l r
  isOrdered := fun _ => true
  isRandomAccess := fun _ => false
  capacity := fun s => min (l.capacity s.1) (r.capacity s.2)

end HyperQuery.Intersection
