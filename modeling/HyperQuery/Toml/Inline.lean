import HyperQuery.Toml.Basic

/-!
# Inline tables

Building an inline table from its entries, whose keys may be dotted.
-/

namespace HyperQuery.Toml

/-- Sets an entry of an inline table, in its place or at the end. -/
def setEntry (key : String) (item : Item) (entries : List (String × Item)) : List (String × Item) :=
  (Table.set ⟨false, false, entries⟩ key item).entries

/-- Adds an entry under a dotted key to an inline table. Only tables that dotted keys have made are entered, and an
entry is made once. -/
def assignInline (key : String) (item : Item) : List String → List (String × Item) → Option (List (String × Item))
  | [], entries => if (entries.lookup key).isSome then none else some (setEntry key item entries)
  | part :: path, entries => do
    let inner ← match entries.lookup part with
      | none => assignInline key item path []
      | some (.inlineTable true inner) => assignInline key item path inner
      | some _ => none
    return setEntry part (.inlineTable true inner) entries

/-- The inline table with the given entries: paths, last parts of keys, and values. -/
def inlineTable? (entries : List (List String × String × Item)) : Option Item :=
  (entries.foldlM (fun table (path, key, item) => assignInline key item path table) []).map (.inlineTable false)

end HyperQuery.Toml
