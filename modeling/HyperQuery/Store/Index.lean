import HyperQuery.Metered
import HyperQuery.Store.Basic
import HyperQuery.Store.Snapshot

/-!
# Index look-ups

A look-up reads the keys in at most two ranges of the key order and keeps those that satisfy the comparison. The
second range is there because integers and doubles are apart in the key order but compare numerically
(`keySpans`).
-/

namespace HyperQuery

open Postings (Bound)

/-- A range of keys. -/
structure KeySpan where
  lower : Bound Value
  upper : Bound Value

namespace KeySpan

/-- The keys that satisfy a comparison with a key of the same kind, and some keys of lesser or greater kinds. -/
def own (op : Comparison) (key : Value) : KeySpan :=
  match op with
  | .eq => ⟨.included key, .included key⟩
  | .lt => ⟨.unbounded, .excluded key⟩
  | .lte => ⟨.unbounded, .included key⟩
  | .gt => ⟨.excluded key, .unbounded⟩
  | .gte => ⟨.included key, .unbounded⟩

/-- A range inside the block of one kind, which reaches from `first` to `last`; the key lies between `low` and
`high`. -/
def cross (op : Comparison) (low high first last : Value) : KeySpan :=
  match op with
  | .eq => ⟨.included low, .included high⟩
  | .lt | .lte => ⟨.included first, .included high⟩
  | .gt | .gte => ⟨.included low, .included last⟩

/-- The doubles that can compare with an integer. The negative zero is below zero in the key order but compares
equal to the integer zero. -/
def doublesAround (op : Comparison) (n : Int64) : KeySpan :=
  let x := Double.ofInt n.toInt
  let low := if x.isZero then Double.negativeZero else x
  cross op (.float low) (.float x) (.float .negativeInfinity) (.float .infinity)

/-- The integers that can compare with a double: those around it, or all of them from `2^53` on, where integers
are rounded before they are compared. -/
def integersAround (op : Comparison) (x : Double) : KeySpan :=
  let first := Int64.minValue
  let last := Int64.maxValue
  let (low, high) :=
    if x.units < Double.one <<< 53 then (Int64.ofInt x.floor, Int64.ofInt x.ceil) else (first, last)
  cross op (.int low) (.int high) (.int first) (.int last)

end KeySpan

/-- The ranges that hold every key that satisfies a comparison. -/
def keySpans (op : Comparison) (key : Value) : List KeySpan :=
  let others := match key with
    | .int n => [KeySpan.doublesAround op n]
    | .float x => if x.isNaN then [] else [KeySpan.integersAround op x]
    | _ => []
  KeySpan.own op key :: others

namespace IndexHandle

/-- The entries of the index as they are now. -/
def entries (h : IndexHandle) (s : Store) : Postings Value := s.contents.getD h.slot .empty

/-- The handles under the keys that satisfy a comparison, range by range. -/
def matching (h : IndexHandle) (s : Store) (op : Comparison) (key : Value) : List AtomId :=
  (keySpans op key).flatMap fun span =>
    ((h.entries s).span span.lower span.upper).flatMap fun (stored, ids) =>
      if stored.satisfies op key then ids else []

/-- Hands out handles, which counts as a scan. -/
def opened (h : IndexHandle) (ids : List AtomId) : Metered Snapshot := do
  Metered.spend .oneScan
  return if h.kind = .hashed then .hashed ids else .sorted ids

/-- The atoms under the given key. -/
def find (h : IndexHandle) (s : Store) (key : Value) : Metered Snapshot := h.opened (h.matching s .eq key)

/-- The atoms under the keys that satisfy a comparison. Ranges need ordered keys, and a wrapper has none. -/
def findRange (h : IndexHandle) (s : Store) (op : Comparison) (key : Value) : Metered Snapshot :=
  if !op.isRange then h.find s key
  else if h.view.isSome || !h.isOrdered then Metered.fail (.unsupported .rangeOnUnorderedIndex)
  else h.opened (h.matching s op key)

/-- The number of entries. -/
def count (h : IndexHandle) (s : Store) : Nat := (h.entries s).size

/-- The number of atoms under a key. -/
def countKey (h : IndexHandle) (s : Store) (key : Value) : Nat := (h.matching s .eq key).length

/-- The keys in order; listing them counts as a scan. -/
def scanKeys (h : IndexHandle) (s : Store) : Metered (List Value) := do
  Metered.spend .oneScan
  return (h.entries s).keys

/-- Every indexed atom. -/
def scanValues (h : IndexHandle) (s : Store) : Metered Snapshot := h.opened (h.entries s).allIds

end IndexHandle

end HyperQuery
