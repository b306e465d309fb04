import HyperQuery.AtomSet

/-!
# Snapshots

What the graph hands out when it is read: a list of handles fixed at that moment, and how a cursor over it can be
positioned.
-/

namespace HyperQuery

/-- How the handles of a snapshot are arranged. -/
inductive Arrangement
  /-- Ascending, without repeats: every handle and the closest greater one can be sought. -/
  | sorted
  /-- In any order, without repeats: only exact handles can be sought. -/
  | hashed
  /-- In any order: nothing can be sought. -/
  | unordered
  deriving DecidableEq

/-- A fixed list of handles. -/
structure Snapshot where
  arrangement : Arrangement
  items : List AtomId
  deriving DecidableEq

namespace Snapshot

/-- Sorts the handles and drops repeats. -/
def sorted (ids : List AtomId) : Snapshot := ⟨.sorted, AtomSet.ofList ids⟩

/-- Takes handles that are already ascending and without repeats. -/
def ofSorted (ids : List AtomId) : Snapshot := ⟨.sorted, ids⟩

/-- Keeps the first occurrence of every handle. -/
def hashed (ids : List AtomId) : Snapshot := ⟨.hashed, ids.eraseDups⟩

/-- Keeps the handles as they are. -/
def unordered (ids : List AtomId) : Snapshot := ⟨.unordered, ids⟩

def empty : Snapshot := ofSorted []

end Snapshot

end HyperQuery
