import HyperQuery.Cursor.Basic

/-!
# Buffered cursors

A buffer turns a producer into a cursor: it goes forward by pulling from the producer and backward over the elements
pulled since it was last repositioned.
-/

namespace HyperQuery

/-- A cursor over a producer with state `σ`. -/
structure Buffered (σ : Type) where
  source : σ
  /-- The elements pulled since the last repositioning. -/
  seen : List AtomId
  position : Position
  /-- Whether the producer has nothing more. -/
  exhausted : Bool
  closed : Bool

namespace Buffered

variable {σ : Type}

def start (source : σ) : Buffered σ := ⟨source, [], .beforeFirst, false, false⟩

def ensureOpen : Move (Buffered σ) Unit := fun b =>
  (if b.closed then Metered.fail .cursorClosed else pure (), b)

/-- Works on the producer. -/
def onSource {α : Type} (m : Move σ α) : Move (Buffered σ) α :=
  Move.onPart Buffered.source (fun s b => { b with source := s }) m

def moveTo (p : Position) : Move (Buffered σ) Unit := Move.update fun b => { b with position := p }

/-- Forgets what was seen. -/
def forget (exhausted : Bool) : Move (Buffered σ) Unit := Move.update fun b => { b with seen := [], exhausted }

/-- Makes the given element the only one seen, and stands on it. -/
def resetAt (x : AtomId) : Move (Buffered σ) Unit :=
  Move.update fun b => { b with seen := [x], position := .on 0, exhausted := false }

variable (p : Producer σ)

/-- Pulls one more element; false if there is none. -/
def pullOne : Move (Buffered σ) Bool := do
  match ← onSource p.pull with
  | some x =>
    Move.update fun b => { b with seen := b.seen ++ [x] }
    return true
  | none =>
    Move.update fun b => { b with exhausted := true }
    return false

/-- Whether there is an element at an index that is at most one beyond those seen. -/
def fill (index : Nat) : Move (Buffered σ) Bool := do
  let b ← Move.read
  if index < b.seen.length then return true
  else if b.exhausted then return false
  else pullOne p

/-- Pulls all the elements there are. -/
def fillAll : Nat → Move (Buffered σ) Unit
  | 0 => pure ()
  | fuel + 1 => do
    if (← Move.read).exhausted then return ()
    else if ← pullOne p then fillAll fuel
    else return ()

/-- Pulls all the elements there are and drops them. -/
def exhaust : Nat → Move (Buffered σ) Unit
  | 0 => pure ()
  | fuel + 1 => do
    match ← onSource p.pull with
    | some _ => exhaust fuel
    | none => return ()

def fuel (b : Buffered σ) : Nat := p.capacity b.source + 1

def hasNext : Move (Buffered σ) Bool := do
  let b ← Move.read
  if b.closed then return false
  else
    match b.position.following? with
    | some i => fill p i
    | none => return false

def next : Move (Buffered σ) (Option AtomId) := do
  ensureOpen
  match (← Move.read).position.following? with
  | none => return none
  | some i =>
    if ← fill p i then
      moveTo (.on i)
      return (← Move.read).seen[i]?
    else
      moveTo .afterLast
      return none

def hasPrev : Move (Buffered σ) Bool := fun b =>
  (pure (!b.closed && (b.position.preceding? b.seen.length).isSome), b)

def prev : Move (Buffered σ) (Option AtomId) := do
  ensureOpen
  let b ← Move.read
  match b.position.preceding? b.seen.length with
  | some i =>
    moveTo (.on i)
    return b.seen[i]?
  | none =>
    moveTo .beforeFirst
    return none

def current (b : Buffered σ) : Except QueryError AtomId :=
  if b.closed then .error .cursorClosed
  else
    match b.position.element? b.seen with
    | some x => .ok x
    | none => .error .noCurrentElement

/-- Brings the producer back to where the cursor stands. -/
def restore : Move (Buffered σ) Unit := do
  let b ← Move.read
  match b.position with
  | .beforeFirst =>
    onSource p.rewind
    forget false
  | .on i =>
    match b.seen[i]? with
    | some x =>
      let _ ← onSource (p.seek x)
      resetAt x
    | none => return ()
  | .afterLast =>
    exhaust p (fuel p b)
    forget true

def goTo (key : AtomId) (exact : Bool) : Move (Buffered σ) Landing := do
  ensureOpen
  let b ← Move.read
  if !p.isRandomAccess b.source then Move.fail (.unsupported .goToWithoutRandomAccess)
  else if b.position.element? b.seen == some key then return .found
  else
    match ← onSource (p.seek key) with
    | some x =>
      if x = key then
        resetAt x
        return .found
      else if !exact then
        resetAt x
        return .closest
      else
        restore p
        return .absent
    | none =>
      restore p
      return .absent

/-- The moves of a cursor over a producer. -/
def navigation : Navigation (Buffered σ) where
  hasNext := hasNext p
  next := next p
  hasPrev := hasPrev
  prev := prev
  current := current
  close := fun b => if b.closed then b else { b with closed := true, seen := [], source := p.close b.source }
  isOrdered := fun b => p.isOrdered b.source
  isRandomAccess := fun b => p.isRandomAccess b.source
  goTo := goTo p
  beforeFirst := do
    ensureOpen
    onSource p.rewind
    forget false
    moveTo .beforeFirst
  afterLast := do
    ensureOpen
    fillAll p (fuel p (← Move.read))
    moveTo .afterLast
  capacity := fun b => b.seen.length + p.capacity b.source

end Buffered

end HyperQuery
