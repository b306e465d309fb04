import HyperQuery.Store.Basic

/-!
# Reachable stores

The stores that the public operations build from the initial one.
-/

namespace HyperQuery

namespace Store

/-- The store is the result of public operations, each of which succeeded, on the initial store. -/
inductive Reachable : Store → Prop
  | initial : Reachable .initial
  | defineType {s s' : Store} {name : String} {search : ValueSearch} {dimensions : List String} {id : AtomId}
    (h : Reachable s) (hs : s.defineType name search dimensions = .ok (id, s')) : Reachable s'
  | mapValueType {s s' : Store} {kind : String} {ty : AtomId} (h : Reachable s)
    (hs : s.mapValueType kind ty = .ok s') : Reachable s'
  | createPartIndex {s s' : Store} {ty : AtomId} {path : String} {ordered : Bool} (h : Reachable s)
    (hs : s.createPartIndex ty path ordered = .ok s') : Reachable s'
  | addAtom {s s' : Store} {ty : AtomId} {value : Value} {id : AtomId} (h : Reachable s)
    (hs : s.addAtom ty value = .ok (id, s')) : Reachable s'
  | addLink {s s' : Store} {ty : AtomId} {targets : List AtomId} {value : Value} {id : AtomId} (h : Reachable s)
    (hs : s.addLink ty targets value = .ok (id, s')) : Reachable s'
  | declareSubtype {s s' : Store} {general specific id : AtomId} (h : Reachable s)
    (hs : s.declareSubtype general specific = .ok (id, s')) : Reachable s'

end Store

end HyperQuery
