import HyperQuery.Store.Postings
import HyperQuery.Value.Basic

/-!
# The graph store

Atoms are numbered `1, 2, 3, …` in the order they are stored. An atom has a type, which is an atom too, a value and
a list of targets; an atom with targets is a link. Beside the atoms the store keeps what queries read instead of
scanning: the atoms of each type, the links pointing at each atom, and indexes from values, or from parts of values,
to atoms. `Store.insert` is the one place where an atom enters all of them.

A change returns the new store, or an error and no store, so a change that fails leaves everything as it was.
-/

namespace HyperQuery

/-- A stored atom. -/
structure Atom where
  id : AtomId
  type : AtomId
  value : Value
  /-- What the atom points at, in order; not empty for links. -/
  targets : List AtomId

/-- Which comparisons of values a type can answer from an index. -/
inductive ValueSearch
  | none
  | point
  | ordered
  deriving DecidableEq

/-- Whether a comparison can be answered from the value index. -/
def ValueSearch.supports : ValueSearch → Comparison → Bool
  | .none, _ => false
  | .point, op => op == .eq
  | .ordered, _ => true

/-- What the store knows about a type. -/
structure TypeDescriptor where
  handle : AtomId
  name : String
  search : ValueSearch
  /-- The paths that make up a composite value; empty for scalars. -/
  dimensions : List String
  deriving DecidableEq

/-- How an index is organised. -/
inductive IndexKind
  /-- Keys in order: ranges can be looked up. -/
  | ranged
  /-- Equality only, answers in ascending order. -/
  | sorted
  /-- Equality only, answers in no order, probed by hash. -/
  | hashed
  deriving DecidableEq

/-- A reference to an index: where the store keeps its entries, and what never changes about it. A reference with a
`view` is a wrapper around the index, of its own identity, that forwards look-ups of equal keys only. -/
structure IndexHandle where
  slot : Nat
  name : String
  kind : IndexKind
  view : Option Nat
  deriving DecidableEq

namespace IndexHandle

/-- Whether the keys are kept in order. -/
def isOrdered (h : IndexHandle) : Bool := h.kind == .ranged

/-- Whether look-ups claim to yield handles in ascending order. A wrapper always claims so. -/
def sortedPostings (h : IndexHandle) : Bool := h.view.isSome || h.kind != .hashed

/-- A wrapper of the given identity. -/
def wrapped (h : IndexHandle) (identity : Nat) : IndexHandle := { h with view := some identity }

/-- The reference as shown to a programmer. -/
def debugText (h : IndexHandle) : String := "IndexHandle(" ++ Text.quoted h.name ++ ")"

end IndexHandle

/-- The graph as stored. -/
structure Store where
  /-- The atoms; the one with handle `n` is at position `n - 1`. -/
  atoms : Array Atom
  byType : Postings AtomId
  /-- The links that have an atom among their targets. -/
  incidence : Postings AtomId
  types : List TypeDescriptor
  /-- The default types of literals, by the names of their kinds. -/
  kindTypes : List (String × AtomId)
  valueIndexes : List (AtomId × IndexHandle)
  /-- The indexes over parts of values, by type and path. -/
  partIndexes : List ((AtomId × String) × IndexHandle)
  /-- The entries of every index ever created, by slot. -/
  contents : Array (Postings Value)

namespace Store

/-! ### Look-ups -/

/-- The type of types. -/
def metaType : AtomId := 1

/-- The type of the links `[general, specific]` that say that one type subsumes another. -/
def subsumesType : AtomId := 2

def atom? (s : Store) (id : AtomId) : Option Atom := if id = 0 then none else s.atoms[id - 1]?

def atom (s : Store) (id : AtomId) : Except QueryError Atom :=
  match s.atom? id with
  | some a => .ok a
  | none => .error (.missingAtom id)

def atomCount (s : Store) : Nat := s.atoms.size

def descriptor (s : Store) (ty : AtomId) : Except QueryError TypeDescriptor :=
  match s.types.find? fun d => d.handle == ty with
  | some d => .ok d
  | none => .error (.missingAtom ty)

def typeHandle (s : Store) (name : String) : Except QueryError AtomId :=
  match s.types.find? fun d => d.name == name with
  | some d => .ok d.handle
  | none => .error (.plan (.unknownType name))

/-- The default type of a literal. -/
def typeOfValue (s : Store) (v : Value) : Option AtomId := s.kindTypes.lookup v.kindName

def typeCount (s : Store) (ty : AtomId) : Nat := (s.byType.ids ty).length

def incidenceCardinality (s : Store) (id : AtomId) : Nat := (s.incidence.ids id).length

/-- The index over the values of a type. -/
def valueIndex? (s : Store) (ty : AtomId) : Option IndexHandle := s.valueIndexes.lookup ty

/-- The index over the parts of the values of a type at a path. -/
def partIndex? (s : Store) (ty : AtomId) (path : String) : Option IndexHandle := s.partIndexes.lookup (ty, path)

/-! ### Changes -/

/-- The handle the next atom gets. -/
def nextId (s : Store) : AtomId := s.atoms.size + 1

/-- The index entries an atom gives rise to: slots and keys. -/
def indexEntries (s : Store) (a : Atom) : List (Nat × Value) :=
  let whole := match s.valueIndex? a.type with
    | some h => [(h.slot, a.value)]
    | none => []
  let parts := s.partIndexes.filterMap fun ((ty, path), h) =>
    if ty = a.type then (a.value.project path).map fun part => (h.slot, part) else none
  whole ++ parts

/-- Stores an atom under the next handle, with everything that is kept about it. -/
def insert (s : Store) (a : Atom) : Store :=
  { s with
    atoms := s.atoms.push a
    byType := s.byType.insert a.type a.id
    incidence := a.targets.foldl (fun table target => table.insert target a.id) s.incidence
    contents := (s.indexEntries a).foldl
      (fun contents (slot, key) => contents.modify slot fun entries => entries.insert key a.id) s.contents }

/-- Stores the atom of a new type and registers its descriptor. -/
def registerType (s : Store) (name : String) (search : ValueSearch) (dimensions : List String) : Store :=
  let handle := s.nextId
  let stored := s.insert { id := handle, type := metaType, value := .string name, targets := [] }
  { stored with types := stored.types ++ [{ handle, name, search, dimensions }] }

/-- A store without atoms. -/
def blank : Store :=
  { atoms := #[], byType := .empty, incidence := .empty, types := [], kindTypes := [], valueIndexes := [],
    partIndexes := [], contents := #[] }

/-- The store every graph starts from: the type of types and the type of subsumption links. -/
def initial : Store := (blank.registerType "Type" .none []).registerType "Subsumes" .none []

/-- Adds an index with the given entries. -/
def pushIndex (s : Store) (entries : Postings Value) : Store := { s with contents := s.contents.push entries }

/-- Defines a type. If its values can be searched, it gets an index over them. -/
def defineType (s : Store) (name : String) (search : ValueSearch) (dimensions : List String) :
    Except QueryError (AtomId × Store) :=
  if s.types.any fun d => d.name == name then .error (.duplicateType name)
  else
    let handle := s.nextId
    let defined := s.registerType name search dimensions
    let withIndex (kind : IndexKind) : Store :=
      let index : IndexHandle := { slot := defined.contents.size, name := name ++ ".value", kind, view := none }
      { defined.pushIndex .empty with valueIndexes := (handle, index) :: defined.valueIndexes }
    match search with
    | .none => .ok (handle, defined)
    | .point => .ok (handle, withIndex .sorted)
    | .ordered => .ok (handle, withIndex .ranged)

/-- Makes a type the default type of the literals of a kind. -/
def mapValueType (s : Store) (kind : String) (ty : AtomId) : Except QueryError Store := do
  let _ ← s.descriptor ty
  return { s with kindTypes := (kind, ty) :: s.kindTypes.filter fun entry => entry.1 != kind }

/-- The entries of a new index over the parts at a path: those of the atoms stored already. -/
def partEntries (s : Store) (ty : AtomId) (path : String) : Postings Value :=
  (s.byType.ids ty).foldl (fun entries id =>
    match (s.atom? id).bind fun a => a.value.project path with
    | some part => entries.insert part id
    | none => entries) .empty

/-- Creates the index over the parts of the values of a type at a path. It takes the place of an earlier one, which
is no longer kept up to date. -/
def createPartIndex (s : Store) (ty : AtomId) (path : String) (ordered : Bool) : Except QueryError Store := do
  let d ← s.descriptor ty
  let index : IndexHandle :=
    { slot := s.contents.size, name := d.name ++ "." ++ path, kind := if ordered then .ranged else .hashed,
      view := none }
  return { s.pushIndex (s.partEntries ty path) with
    partIndexes := ((ty, path), index) :: s.partIndexes.filter fun entry => entry.1 != (ty, path) }

/-- Stores a link; every target has to be stored already. -/
def addLink (s : Store) (ty : AtomId) (targets : List AtomId) (value : Value) :
    Except QueryError (AtomId × Store) := do
  let _ ← s.descriptor ty
  for target in targets do
    let _ ← s.atom target
  let id := s.nextId
  return (id, s.insert { id, type := ty, value, targets })

/-- Stores an atom without targets. -/
def addAtom (s : Store) (ty : AtomId) (value : Value) : Except QueryError (AtomId × Store) :=
  s.addLink ty [] value

/-- Records that a type subsumes another. -/
def declareSubtype (s : Store) (general specific : AtomId) : Except QueryError (AtomId × Store) := do
  let _ ← s.descriptor general
  let _ ← s.descriptor specific
  s.addLink subsumesType [general, specific] .null

end Store

end HyperQuery
