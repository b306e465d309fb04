import HyperQuery.AtomSet

/-!
# Postings

A sorted table from keys to ascending sets of handles, the structure behind the type index, the incidence sets and
the value indexes. `span` reads a contiguous range of keys.
-/

namespace HyperQuery

/-- A table from keys, in ascending order, to ascending sets of handles. -/
structure Postings (κ : Type) where
  entries : List (κ × List AtomId)

namespace Postings

variable {κ : Type}

def empty : Postings κ := ⟨[]⟩

variable [Ord κ]

/-- Adds a handle under a key in the list of entries. -/
def insertEntry (key : κ) (id : AtomId) : List (κ × List AtomId) → List (κ × List AtomId)
  | [] => [(key, [id])]
  | (k, ids) :: rest =>
    match compare key k with
    | .lt => (key, [id]) :: (k, ids) :: rest
    | .eq => (k, AtomSet.insert id ids) :: rest
    | .gt => (k, ids) :: insertEntry key id rest

/-- Adds a handle under a key. -/
def insert (p : Postings κ) (key : κ) (id : AtomId) : Postings κ := ⟨insertEntry key id p.entries⟩

/-- The handles under a key. -/
def ids (p : Postings κ) (key : κ) : List AtomId :=
  match p.entries.find? fun entry => compare key entry.1 == .eq with
  | some entry => entry.2
  | none => []

/-- The keys in ascending order. -/
def keys (p : Postings κ) : List κ := p.entries.map Prod.fst

/-- Every handle, key by key. -/
def allIds (p : Postings κ) : List AtomId := p.entries.flatMap Prod.snd

/-- How many pairs of a key and a handle there are. -/
def size (p : Postings κ) : Nat := p.allIds.length

/-- One end of a range of keys. -/
inductive Bound (κ : Type)
  | unbounded
  | included (key : κ)
  | excluded (key : κ)

/-- Whether a key is not below the end at the bottom. -/
def Bound.isBelow : Bound κ → κ → Bool
  | .unbounded, _ => true
  | .included lo, k => compare lo k != .gt
  | .excluded lo, k => compare lo k == .lt

/-- Whether a key is not above the end at the top. -/
def Bound.isAbove : Bound κ → κ → Bool
  | .unbounded, _ => true
  | .included hi, k => compare k hi != .gt
  | .excluded hi, k => compare k hi == .lt

/-- The entries between two ends. -/
def span (p : Postings κ) (lower upper : Bound κ) : List (κ × List AtomId) :=
  (p.entries.dropWhile fun entry => !lower.isBelow entry.1).takeWhile fun entry => upper.isAbove entry.1

end Postings

end HyperQuery
