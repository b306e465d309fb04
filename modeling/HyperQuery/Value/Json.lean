import HyperQuery.Json.Number
import HyperQuery.Json.Parser
import HyperQuery.Value.Basic

/-!
# Values as JSON

The serialized form of a value is an object of a tag `t`, which names the kind, and a content `v`:
`{"t":"Int","v":3}`; a null has no content. `Value.toJson` writes it.

`Value.ofJson?` reads it, and takes more than is written: tag and content in either order, further fields, an array of
tag and content in place of the object, a null content of a null, and in an object a tag as an object with a null. What
is nested 128 deep is refused. A field that stands for nothing is skipped whatever it holds, but a content that comes
before its tag has to be kept until the tag is known, so it must be sound in itself (`isSound`). In a kept content the
tag of a value may also be an object with an empty object or, in an array, the number of the kind (`Source`).
-/

namespace HyperQuery.Value

/-! ### Writing -/

/-- The tag of the value's kind. -/
def tag : Value → String
  | .null => "Null"
  | .bool _ => "Bool"
  | .int _ => "Int"
  | .float _ => "Float"
  | .string _ => "String"
  | .bytes _ => "Bytes"
  | .record _ => "Record"

mutual

/-- The content of a value. A double that is not finite has no number and is written as null. -/
def contentJson : Value → Json
  | .null => .null
  | .bool b => .bool b
  | .int n => .number (JsonNumber.ofInt n.toInt)
  | .float x =>
    match JsonNumber.ofDouble? x with
    | some n => .number n
    | none => .null
  | .string s => .string (some s)
  | .bytes data => .array (data.map fun byte => .number (JsonNumber.ofInt byte.toNat))
  | .record fields => .object (fieldsJson fields)

/-- The serialized form. -/
def toJson : Value → Json
  | .null => .object [(some "t", .string (some "Null"))]
  | v => .object [(some "t", .string (some v.tag)), (some "v", contentJson v)]

/-- The serialized fields of a record. -/
def fieldsJson : List (String × Value) → List (JsonText × Json)
  | [] => []
  | (name, v) :: rest => (some name, toJson v) :: fieldsJson rest

end

/-! ### Reading -/

/-- The kinds of values. -/
inductive Kind
  | null
  | bool
  | int
  | float
  | string
  | bytes
  | record
  deriving DecidableEq

def Kind.ofTag? : String → Option Kind
  | "Null" => some .null
  | "Bool" => some .bool
  | "Int" => some .int
  | "Float" => some .float
  | "String" => some .string
  | "Bytes" => some .bytes
  | "Record" => some .record
  | _ => none

/-- The kind with the given number. -/
def Kind.ofNumber? (n : Int) : Option Kind :=
  match n with
  | 0 => some .null
  | 1 => some .bool
  | 2 => some .int
  | 3 => some .float
  | 4 => some .string
  | 5 => some .bytes
  | 6 => some .record
  | _ => none

/-- Where a value is read from: the text itself, or a content that was kept until its tag was known. -/
inductive Source
  | text
  | kept
  deriving DecidableEq

/-- The kind that the tag field of an object names: a string, or an object with a null under that name. In a kept
content an empty object does for the null. -/
def readTagField? (source : Source) (depth : Nat) : Json → Option Kind
  | .string (some tag) => Kind.ofTag? tag
  | .object [(some tag, .null)] => if 1 < depth then Kind.ofTag? tag else none
  | .object [(some tag, .object [])] => if source = .kept ∧ 1 < depth then Kind.ofTag? tag else none
  | _ => none

/-- The kind that the first item of an array names: a string, or in a kept content a number. -/
def readTagItem? (source : Source) : Json → Option Kind
  | .string (some tag) => Kind.ofTag? tag
  | .number n => if source = .kept then n.int?.bind Kind.ofNumber? else none
  | _ => none

mutual

/-- Whether everything in the text can be kept: strings with a text, numbers in range, and no deeper nesting than
allowed. -/
def isSound (depth : Nat) : Json → Bool
  | .number n => match n.meaning with
    | .outOfRange => false
    | _ => true
  | .string text => text.isSome
  | .array items => decide (1 < depth) && areSound (depth - 1) items
  | .object fields => decide (1 < depth) && areSoundFields (depth - 1) fields
  | _ => true

/-- Whether all items can be kept. -/
def areSound (depth : Nat) : List Json → Bool
  | [] => true
  | item :: rest => isSound depth item && areSound depth rest

/-- Whether all fields can be kept. -/
def areSoundFields (depth : Nat) : List (JsonText × Json) → Bool
  | [] => true
  | (name, item) :: rest => name.isSome && isSound depth item && areSoundFields depth rest

end

/-- The fields named `t` and `v`, if the names of all fields have a text. -/
def relevantFields : List (JsonText × Json) → Option (List (String × Json))
  | [] => some []
  | (none, _) :: _ => none
  | (some name, item) :: rest =>
    (relevantFields rest).map fun relevant =>
      if name = "t" ∨ name = "v" then (name, item) :: relevant else relevant

/-- The kind and the content, if there is one, with the source that the content is read from. -/
def tagAndContent? (source : Source) (depth : Nat) : Json → Option (Kind × Option (Source × Json))
  | .array [tag, content] => (readTagItem? source tag).map fun kind => (kind, some (source, content))
  | .object fields => do
    match ← relevantFields fields with
    | [("t", tag)] => return (← readTagField? source depth tag, none)
    | [("t", tag), ("v", content)] => return (← readTagField? source depth tag, some (source, content))
    | [("v", content), ("t", tag)] =>
      if isSound depth content then return (← readTagField? source depth tag, some (.kept, content)) else none
    | _ => none
  | _ => none

def readByte? : Json → Option UInt8
  | .number n => n.int?.bind fun n => if 0 ≤ n ∧ n ≤ 255 then some (UInt8.ofNat n.toNat) else none
  | _ => none

/-- Reads the fields of a record, given how their values are read. -/
def readFields? (readValue : Json → Option Value) : List (JsonText × Json) → Option (List (String × Value))
  | [] => some []
  | (none, _) :: _ => none
  | (some name, item) :: rest => do
    let v ← readValue item
    return (name, v) :: (← readFields? readValue rest)

/-- Reads a content of the given kind. -/
def readContent? (depth : Nat) (readValue : Json → Option Value) (kind : Kind) (content : Json) : Option Value :=
  match kind, content with
  | .null, .null => some .null
  | .bool, .bool b => some (.bool b)
  | .int, .number n =>
    n.int?.bind fun n =>
      if Int64.minValue.toInt ≤ n ∧ n ≤ Int64.maxValue.toInt then some (.int (Int64.ofInt n)) else none
  | .float, .number n => n.double?.map .float
  | .string, .string text => text.map .string
  | .bytes, .array items => if 1 < depth then (items.mapM readByte?).map .bytes else none
  | .record, .object fields => if 1 < depth then (readFields? readValue fields).map ofFields else none
  | _, _ => none

/-- Reads a value that may be nested so deep. A value takes up one level, and the content of a record another one. -/
def readJson? : Nat → Source → Json → Option Value
  | 0, _, _ => none
  | 1, _, _ => none
  | depth + 2, source, j => do
    match ← tagAndContent? source (depth + 1) j with
    | (kind, some (source, content)) => readContent? (depth + 1) (readJson? depth source) kind content
    | (.null, none) => some .null
    | (_, none) => none

/-- How many levels of nesting are too many. -/
def depthLimit : Nat := 128

/-- Reads a value from its serialized form. -/
def ofJson? (j : Json) : Option Value := readJson? depthLimit .text j

/-- The value as a JSON text. -/
def toJsonText (v : Value) : String := v.toJson.compact

/-- The value that a JSON text stands for. -/
def ofJsonText? (text : String) : Option Value := (Json.parse? text).bind ofJson?

end HyperQuery.Value
