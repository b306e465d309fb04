/-!
# TOML

A TOML document is a table of items. Tables remember how they came about, because a table may be opened by a header
once only and cannot be extended from elsewhere afterwards (`Table.assign`, `Table.openTable`).
-/

namespace HyperQuery.Toml

/-- A value or a table of a document. -/
inductive Item
  | string (text : String)
  | integer (n : Int)
  | float
  | boolean (b : Bool)
  | dateTime
  | array (items : List Item)
  /-- An inline table. One that only stands for the inner part of a dotted key is marked. -/
  | inlineTable (dotted : Bool) (entries : List (String × Item))
  /-- A table from a header, from the inner part of a header (implicit) or from a dotted key. -/
  | table (implicit : Bool) (dotted : Bool) (entries : List (String × Item))
  /-- The tables of repeated headers in double brackets, the last one first. -/
  | tables (rows : List (List (String × Item)))

/-- A table with the marks it carries. -/
structure Table where
  implicit : Bool
  dotted : Bool
  entries : List (String × Item)

namespace Table

/-- The table of a document before anything is read. -/
def root : Table := ⟨false, false, []⟩

def item (t : Table) : Item := .table t.implicit t.dotted t.entries

def get? (t : Table) (key : String) : Option Item := t.entries.lookup key

/-- Sets an entry, in its place or at the end. -/
def set (t : Table) (key : String) (item : Item) : Table :=
  { t with entries :=
      if t.entries.any fun entry => entry.1 == key then
        t.entries.map fun entry => if entry.1 == key then (key, item) else entry
      else t.entries ++ [(key, item)] }

def erase (t : Table) (key : String) : Table :=
  { t with entries := t.entries.filter fun entry => entry.1 != key }

/-- Changes the table at the end of a path, making tables that are missing. Along a dotted key, tables that have a
header of their own are not entered; along a header, the last of repeated tables is. -/
def changeAt (dotted : Bool) (change : Table → Option Table) : List String → Table → Option Table
  | [], t => change t
  | key :: path, t =>
    match t.get? key with
    | none => do
      let inner ← changeAt dotted change path ⟨true, dotted, []⟩
      return t.set key inner.item
    | some (.table implicit isDotted entries) =>
      if dotted && !implicit then none
      else do
        let inner ← changeAt dotted change path ⟨implicit, isDotted, entries⟩
        return t.set key inner.item
    | some (.tables (row :: rows)) => do
      let inner ← changeAt dotted change path ⟨false, false, row⟩
      return t.set key (.tables (inner.entries :: rows))
    | some _ => none

/-- The table at the end of a path of a header, empty if it is missing. -/
def tableAt : List String → Table → Option Table
  | [], t => some t
  | key :: path, t =>
    match t.get? key with
    | none => tableAt path ⟨true, false, []⟩
    | some (.table implicit dotted entries) => tableAt path ⟨implicit, dotted, entries⟩
    | some (.tables (row :: _)) => tableAt path ⟨false, false, row⟩
    | some _ => none

/-- Adds an entry under a dotted key, given as the path and the last part. -/
def assign (path : List String) (key : String) (item : Item) (t : Table) : Option Table :=
  changeAt true (fun inner =>
    if inner.dotted == path.isEmpty || (inner.get? key).isSome then none
    else some (inner.set key item)) path t

/-- The table that a header opens: a new one, or one that was implied by a longer header before. -/
def openTable (t : Table) (key : String) : Option Table :=
  match t.get? key with
  | none => some ⟨false, false, []⟩
  | some (.table true false entries) => some ⟨false, false, entries⟩
  | some _ => none

/-- Puts a table that was opened by a header in its place. -/
def placeTable (path : List String) (key : String) (opened : Table) (t : Table) : Option Table :=
  changeAt false (fun parent => some ((parent.erase key).set key opened.item)) path t

/-- Adds a row to repeated tables. -/
def placeRow (path : List String) (key : String) (row : Table) (t : Table) : Option Table :=
  changeAt false (fun parent =>
    match parent.get? key with
    | none => some (parent.set key (.tables [row.entries]))
    | some (.tables rows) => some (parent.set key (.tables (row.entries :: rows)))
    | some _ => none) path t

end Table

end HyperQuery.Toml
