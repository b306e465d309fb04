import HyperQuery.Metered

/-!
# Cursors

A cursor walks over handles in both directions. It starts before the first element and ends after the last one
(`Position`). `Navigation σ` is the set of moves of cursors with state `σ`; `Producer σ` is the simpler thing most
cursors are made of, which only goes forward and is given the rest by a buffer.

`capacity` bounds how many elements a cursor has to offer; it ends the loops over them.
-/

namespace HyperQuery

/-- Where a cursor stands. -/
inductive Position
  | beforeFirst
  | on (index : Nat)
  | afterLast
  deriving DecidableEq

namespace Position

/-- The index a step forward leads to. -/
def following? : Position → Option Nat
  | .beforeFirst => some 0
  | .on i => some (i + 1)
  | .afterLast => none

/-- The index a step backward leads to, among so many elements. -/
def preceding? (length : Nat) : Position → Option Nat
  | .beforeFirst => none
  | .on 0 => none
  | .on (i + 1) => some i
  | .afterLast => if length = 0 then none else some (length - 1)

/-- The element at the position. -/
def element? (items : List AtomId) : Position → Option AtomId
  | .on i => items[i]?
  | _ => none

end Position

/-- How a cursor comes out of seeking a handle. -/
inductive Landing
  /-- It stands on the handle. -/
  | found
  /-- It stands on the closest greater element. -/
  | closest
  /-- It stands where it stood. -/
  | absent
  deriving DecidableEq

/-- The moves of a cursor with state `σ`. -/
structure Navigation (σ : Type) where
  hasNext : Move σ Bool
  next : Move σ (Option AtomId)
  hasPrev : Move σ Bool
  prev : Move σ (Option AtomId)
  /-- The element the cursor stands on. -/
  current : σ → Except QueryError AtomId
  close : σ → σ
  /-- Whether elements come in ascending order. -/
  isOrdered : σ → Bool
  /-- Whether elements can be sought. -/
  isRandomAccess : σ → Bool
  /-- Seeks a handle, or with `exact` unset the closest greater element in its place. -/
  goTo : (key : AtomId) → (exact : Bool) → Move σ Landing
  beforeFirst : Move σ Unit
  afterLast : Move σ Unit
  capacity : σ → Nat

/-- Something that yields elements one after the other. -/
structure Producer (σ : Type) where
  pull : Move σ (Option AtomId)
  /-- Yields the smallest element that is not below the key; the next one pulled follows it. -/
  seek : AtomId → Move σ (Option AtomId)
  rewind : Move σ Unit
  close : σ → σ
  isOrdered : σ → Bool
  isRandomAccess : σ → Bool
  capacity : σ → Nat

namespace Navigation

variable {σ : Type}

/-- The smallest element that is not below the key, to which the cursor goes. -/
def seekFrom (n : Navigation σ) (key : AtomId) : Move σ (Option AtomId) := do
  match ← n.goTo key false with
  | .absent => return none
  | _ => return some (← (n.current (← Move.read) : Except QueryError AtomId))

/-- The remaining elements, at most so many, up to the first error. -/
def readOut (n : Navigation σ) : Nat → Move σ (List AtomId × Option QueryError)
  | 0 => pure ([], none)
  | fuel + 1 => fun s =>
    match n.next s with
    | (⟨.error e, spent⟩, s) => (⟨.ok ([], some e), spent⟩, s)
    | (⟨.ok none, spent⟩, s) => (⟨.ok ([], none), spent⟩, s)
    | (⟨.ok (some x), spent⟩, s) =>
      let (rest, s) := readOut n fuel s
      (⟨rest.answer.map fun (xs, e) => (x :: xs, e), spent + rest.meters⟩, s)

/-- The remaining elements and the error that ended them, if one did. -/
def remaining (n : Navigation σ) : Move σ (List AtomId × Option QueryError) := do
  n.readOut (n.capacity (← Move.read) + 1)

/-- The remaining elements. -/
def drain (n : Navigation σ) : Move σ (List AtomId) := do
  match ← n.remaining with
  | (xs, none) => return xs
  | (_, some e) => Move.fail e

/-- The remaining elements; the cursor is closed whether or not there is an error. -/
def collect (n : Navigation σ) : Move σ (List AtomId) := do
  let (xs, e) ← n.remaining
  Move.update n.close
  match e with
  | none => return xs
  | some e => Move.fail e

end Navigation

/-- The navigation of a cursor together with how it is opened. -/
structure Access (σ : Type) extends Navigation σ where
  start : Metered σ

end HyperQuery
