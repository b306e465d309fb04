import HyperQuery.Cursor.Basic

/-!
# Filters and mappings

The elements of a cursor that pass tests, and the images of its elements under a mapping.
-/

namespace HyperQuery

/-- A test of candidates with state `τ`. -/
structure Tester (τ : Type) where
  test : AtomId → Move τ Bool
  close : τ → τ

namespace Tester

variable {σ τ : Type}

/-- Counts the test of a candidate. -/
def counted {α : Type} (test : Move α Bool) : Move α Bool := do
  let passed ← test
  Metered.spend (.oneEval passed)
  return passed

/-- A test without a state of its own. -/
def point (test : AtomId → Metered Bool) : Tester Unit where
  test := fun id => counted (test id : Metered Bool)
  close := fun _ => ()

/-- Makes sure that the state is there, by the given computation the first time. -/
def prepare (make : Metered σ) : Move (Option σ) Unit := fun s? =>
  match s? with
  | some s => (pure (), some s)
  | none =>
    match make with
    | ⟨.ok s, spent⟩ => (⟨.ok (), spent⟩, some s)
    | ⟨.error e, spent⟩ => (⟨.error e, spent⟩, none)

/-- Works on a state that has been prepared. -/
def onPrepared {α : Type} (missing : α) (m : Move σ α) : Move (Option σ) α := fun s? =>
  match s? with
  | some s =>
    let (r, s) := m s
    (r, some s)
  | none => (pure missing, none)

/-- Whether the candidate is found by a cursor, which is opened for the first candidate. -/
def member (a : Access σ) : Tester (Option σ) where
  test := fun id => do
    prepare a.start
    counted (onPrepared false do return (← a.goTo id true) == .found)
  close := fun _ => none

/-- The elements of a cursor as a set of limited size. -/
def gathered (a : Access σ) (limit : Option Nat) : Metered (List AtomId) := do
  let s ← a.start
  let ids ← (a.collect s).1
  if limit.any fun most => decide (most < ids.length) then
    Metered.fail (.oversizedSet ids.length (limit.getD 0))
  else
    Metered.spend (.oneMaterialization ids.length)
    return ids

/-- Whether the candidate is among the elements of a cursor, which are collected for the first candidate. -/
def gather (a : Access σ) (limit : Option Nat) : Tester (Option (List AtomId)) where
  test := fun id => do
    prepare (gathered a limit)
    counted (onPrepared false do return (← Move.read).contains id)
  close := fun _ => none

/-- The test that everything passes. -/
def always : Tester Unit := ⟨fun _ => pure true, fun _ => ()⟩

/-- Two tests one after the other; a candidate that fails the first one is not put to the second one. -/
def both (a : Tester σ) (b : Tester τ) : Tester (σ × τ) where
  test := fun id => do if ← Move.onFst (a.test id) then Move.onSnd (b.test id) else return false
  close := fun s => (a.close s.1, b.close s.2)

end Tester

namespace Filter

variable {σ τ : Type} (base : Navigation σ) (tests : Tester τ)

/-- The next element that passes the tests. -/
def pullPassing : Nat → Move (σ × τ) (Option AtomId)
  | 0 => return none
  | fuel + 1 => do
    match ← Move.onFst base.next with
    | none => return none
    | some x => if ← Move.onSnd (tests.test x) then return some x else pullPassing fuel

def pull : Move (σ × τ) (Option AtomId) := do
  pullPassing base tests (base.capacity (← Move.read).1 + 1)

/-- The elements that pass the tests. -/
def producer : Producer (σ × τ) where
  pull := pull base tests
  seek := fun key => do
    match ← Move.onFst (base.seekFrom key) with
    | none => return none
    | some x => if ← Move.onSnd (tests.test x) then return some x else pull base tests
  rewind := Move.onFst base.beforeFirst
  close := fun s => (base.close s.1, tests.close s.2)
  isOrdered := fun s => base.isOrdered s.1
  isRandomAccess := fun s => base.isOrdered s.1 && base.isRandomAccess s.1
  capacity := fun s => base.capacity s.1

end Filter

namespace MapEach

variable {σ : Type} (base : Navigation σ) (image : AtomId → Metered (Option AtomId))

/-- The image of the next element that has one. -/
def pullImage : Nat → Move σ (Option AtomId)
  | 0 => return none
  | fuel + 1 => do
    match ← base.next with
    | none => return none
    | some x =>
      match ← image x with
      | some y => return some y
      | none => pullImage fuel

/-- The images of the elements. -/
def producer : Producer σ where
  pull := do pullImage base image (base.capacity (← Move.read) + 1)
  seek := fun _ => Move.fail (.unsupported .seekWithoutRandomAccess)
  rewind := base.beforeFirst
  close := base.close
  isOrdered := fun _ => false
  isRandomAccess := fun _ => false
  capacity := base.capacity

end MapEach

end HyperQuery
