import HyperQuery.Toml.Inline
import HyperQuery.Toml.Scalar

/-!
# Reading TOML documents

A document is read line by line (`Document.readLines`): comments, entries of the table that is open, and headers that open
another one. `Toml.parse?` reads a whole document.
-/

namespace HyperQuery.Toml

/-- How many levels of nesting, or parts of a key, are too many. -/
def nestingLimit : Nat := 80

/-! ### Keys -/

def isBareKeyChar (c : Char) : Bool := c.isAlphanum || c == '-' || c == '_'

/-- Reads one part of a key. -/
def readKeyPart (cs : List Char) : Option (String × List Char) :=
  match readLineString cs with
  | some (text, rest) => some (String.ofList text, rest)
  | none =>
    let (bare, rest) := cs.span isBareKeyChar
    if bare.isEmpty then none else some (String.ofList bare, rest)

/-- Reads the parts of a dotted key, with blanks around each. -/
def readKeyParts : Nat → List Char → Option (List String × List Char)
  | 0, _ => none
  | fuel + 1, cs => do
    let (part, cs) ← readKeyPart (skipBlanks cs)
    match skipBlanks cs with
    | '.' :: cs =>
      let (parts, cs) ← readKeyParts fuel cs
      return (part :: parts, cs)
    | cs => return ([part], cs)

/-- Reads a key: the path and the last part. -/
def readKey (cs : List Char) : Option ((List String × String) × List Char) := do
  let (parts, rest) ← readKeyParts (cs.length + 1) cs
  let last ← parts.getLast?
  if nestingLimit ≤ parts.length then none else some ((parts.dropLast, last), rest)

/-! ### Values -/

/-- Skips a comment, up to the end of the line. -/
def skipComment : List Char → Option (List Char)
  | '#' :: cs =>
    let rest := cs.dropWhile isPlain
    if rest.isEmpty || (readNewline rest).isSome then some rest else none
  | cs => some cs

/-- Skips blanks, comments and line breaks. -/
def skipLines : Nat → List Char → Option (List Char)
  | 0, _ => none
  | fuel + 1, cs => do
    let cs ← skipComment (skipBlanks cs)
    match readNewline cs with
    | some rest => skipLines fuel rest
    | none => some cs

mutual

/-- Reads a value, nested at most so deep. -/
def readValue (depth : Nat) : Nat → List Char → Option (Item × List Char)
  | 0, _ => none
  | fuel + 1, cs =>
    match cs with
    | [] => none
    | c :: rest =>
      if c = '\x22' ∨ c = apostrophe then readString (c :: rest)
      else if c = '[' then
        if depth + 1 < nestingLimit then
          (readItems (depth + 1) fuel rest).map fun (items, rest) => (.array items, rest)
        else none
      else if c = '\x7b' then
        if depth + 1 < nestingLimit then
          match skipBlanks rest with
          | '\x7d' :: rest => some (.inlineTable false [], rest)
          | rest => do
            let (entries, rest) ← readEntries (depth + 1) fuel rest
            return (← inlineTable? entries, rest)
        else none
      else if c = 't' then (Json.readWord ['r', 'u', 'e'] rest).map fun rest => (.boolean true, rest)
      else if c = 'f' then (Json.readWord ['a', 'l', 's', 'e'] rest).map fun rest => (.boolean false, rest)
      else if startsDate (c :: rest) then readDateTime (c :: rest)
      else readNumber (c :: rest)

/-- Reads items up to the end of an array. -/
def readItems (depth : Nat) : Nat → List Char → Option (List Item × List Char)
  | 0, _ => none
  | fuel + 1, cs => do
    let cs ← skipLines (cs.length + 1) cs
    match cs with
    | ']' :: rest => return ([], rest)
    | cs =>
      let (item, cs) ← readValue depth fuel cs
      let cs ← skipLines (cs.length + 1) cs
      match cs with
      | ',' :: rest =>
        let (items, rest) ← readItems depth fuel rest
        return (item :: items, rest)
      | ']' :: rest => return ([item], rest)
      | _ => none

/-- Reads entries up to the end of an inline table. -/
def readEntries (depth : Nat) : Nat → List Char → Option (List (List String × String × Item) × List Char)
  | 0, _ => none
  | fuel + 1, cs => do
    let ((path, key), cs) ← readKey cs
    match cs with
    | '=' :: rest =>
      let (item, rest) ← readValue depth fuel (skipBlanks rest)
      match skipBlanks rest with
      | ',' :: rest =>
        let (entries, rest) ← readEntries depth fuel rest
        return ((path, key, item) :: entries, rest)
      | '\x7d' :: rest => return ([(path, key, item)], rest)
      | _ => none
    | _ => none

end

/-! ### Documents -/

/-- What opened the table that entries go into. -/
inductive Header
  | none
  | single (path : List String) (key : String)
  | repeated (path : List String) (key : String)

/-- A document while it is read: the tables that are complete and the one that is open. -/
structure Document where
  done : Table
  header : Header
  current : Table

namespace Document

def start : Document := ⟨.root, .none, .root⟩

/-- Puts the open table in its place. -/
def close (d : Document) : Option Table :=
  match d.header with
  | .none => some d.current
  | .single path key => Table.placeTable path key d.current d.done
  | .repeated path key => Table.placeRow path key d.current d.done

/-- Opens a table by its header. -/
def openSingle (d : Document) (path : List String) (key : String) : Option Document := do
  let done ← d.close
  let parent ← done.tableAt path
  return ⟨done, .single path key, ← parent.openTable key⟩

/-- Opens a row of repeated tables by its header. -/
def openRepeated (d : Document) (path : List String) (key : String) : Option Document := do
  let done ← d.close
  let _ ← Table.placeRow path key .root done
  return ⟨done, .repeated path key, .root⟩

/-- Adds an entry to the open table. -/
def addEntry (d : Document) (path : List String) (key : String) (item : Item) : Option Document := do
  return { d with current := ← d.current.assign path key item }

/-- Reads a header after its first bracket, up to the last one. -/
def readHeader (d : Document) : List Char → Option (Document × List Char)
  | '[' :: cs => do
    let ((path, key), cs) ← readKey cs
    match cs with
    | ']' :: ']' :: rest => return (← d.openRepeated path key, rest)
    | _ => none
  | cs => do
    let ((path, key), cs) ← readKey cs
    match cs with
    | ']' :: rest => return (← d.openSingle path key, rest)
    | _ => none

/-- Reads an entry of the open table. -/
def readEntry (d : Document) (cs : List Char) : Option (Document × List Char) := do
  let ((path, key), cs) ← readKey cs
  match cs with
  | '=' :: rest =>
    let rest := skipBlanks rest
    let (item, rest) ← readValue 0 (rest.length + 1) rest
    return (← d.addEntry path key item, rest)
  | _ => none

/-- Reads the content of one line: a header, an entry or nothing. -/
def readContent (d : Document) (cs : List Char) : Option (Document × List Char) :=
  match cs with
  | [] => some (d, [])
  | '[' :: rest => d.readHeader rest
  | c :: rest => if c = '#' ∨ c = '\n' ∨ c = '\r' then some (d, c :: rest) else d.readEntry (c :: rest)

/-- Reads lines up to the end of the text. -/
def readLines : Nat → Document → List Char → Option Document
  | 0, _, _ => none
  | fuel + 1, d, cs => do
    let (d, cs) ← d.readContent (skipBlanks cs)
    match ← skipComment (skipBlanks cs) with
    | [] => return d
    | cs => readLines fuel d (← readNewline cs)

end Document

/-- Reads a document. A byte order mark in front is skipped. -/
def parse? (text : String) : Option Table := do
  let cs := match text.toList with
    | '\ufeff' :: rest => rest
    | cs => cs
  let d ← Document.start.readLines (cs.length + 1) cs
  d.close

end HyperQuery.Toml
