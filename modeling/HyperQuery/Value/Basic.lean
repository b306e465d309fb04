import HyperQuery.Comparison
import HyperQuery.Double.Decimal
import HyperQuery.Text.Quoted

/-!
# Values

What an atom stores, a condition compares with and an index is keyed by. Two orders are defined:

* `Value.compare`, a total order of all values: first by kind, then within the kind (doubles by
  `Double.totalCompare`, records field by field); equality of values is equality in this order;
* `Value.partialCompare`, the order conditions are decided by: an integer and a double compare numerically, every
  other two values of different kinds do not compare.
-/

namespace HyperQuery

/-- A stored value. The fields of a record are listed in ascending order of their names, each name once. -/
inductive Value
  | null
  | bool (b : Bool)
  | int (n : Int64)
  | float (x : Double)
  | string (s : String)
  | bytes (data : List UInt8)
  | record (fields : List (String × Value))

namespace Value

/-! ### Records -/

/-- Sets a field, keeping the names ascending; a field of the same name is replaced. -/
def setField (name : String) (v : Value) : List (String × Value) → List (String × Value)
  | [] => [(name, v)]
  | (k, w) :: rest =>
    match Ord.compare name k with
    | .lt => (name, v) :: (k, w) :: rest
    | .eq => (name, v) :: rest
    | .gt => (k, w) :: setField name v rest

/-- The record with the given fields; of several fields of one name the last one counts. -/
def ofFields (fields : List (String × Value)) : Value :=
  .record (fields.foldl (fun acc field => setField field.1 field.2 acc) [])

/-- The field of the given name. -/
def field? (name : String) : List (String × Value) → Option Value
  | [] => none
  | (k, v) :: rest => if k = name then some v else field? name rest

/-- Splits the characters of a path at its dots. -/
def splitDots : List Char → List (List Char)
  | [] => [[]]
  | c :: rest =>
    if c = '.' then [] :: splitDots rest
    else
      match splitDots rest with
      | [] => [[c]]
      | segment :: segments => (c :: segment) :: segments

/-- The names along a dot-separated path; a path without dots is one name, which may be empty. -/
def segments (path : String) : List String := (splitDots path.toList).map String.ofList

/-- Follows field names into nested records. -/
def descend : List String → Value → Option Value
  | [], v => some v
  | name :: names, .record fields => (field? name fields).bind (descend names)
  | _ :: _, _ => none

/-- The part of the value at a dot-separated path; none if a name is missing or leads into something that is not
a record. -/
def project (path : String) (v : Value) : Option Value := descend (segments path) v

/-! ### Kinds -/

/-- The name of the value's kind. -/
def kindName : Value → String
  | .null => "null"
  | .bool _ => "bool"
  | .int _ => "int"
  | .float _ => "float"
  | .string _ => "string"
  | .bytes _ => "bytes"
  | .record _ => "record"

/-- The place of the value's kind in the order of values. -/
def kindRank : Value → Nat
  | .null => 0
  | .bool _ => 1
  | .int _ => 2
  | .float _ => 3
  | .string _ => 4
  | .bytes _ => 5
  | .record _ => 6

def isNull : Value → Bool
  | .null => true
  | _ => false

/-! ### Order -/

mutual

/-- The total order of values. -/
def compare : Value → Value → Ordering
  | .null, .null => .eq
  | .bool a, .bool b => Ord.compare a b
  | .int a, .int b => Ord.compare a b
  | .float a, .float b => a.totalCompare b
  | .string a, .string b => Ord.compare a b
  | .bytes a, .bytes b => Ord.compare a b
  | .record a, .record b => compareFields a b
  | a, b => Ord.compare a.kindRank b.kindRank

/-- Records compare by their first differing field: its name, then its value; a proper beginning comes first. -/
def compareFields : List (String × Value) → List (String × Value) → Ordering
  | [], [] => .eq
  | [], _ :: _ => .lt
  | _ :: _, [] => .gt
  | (k, v) :: a, (l, w) :: b => (Ord.compare k l).then ((compare v w).then (compareFields a b))

end

instance : Ord Value := ⟨compare⟩

instance : BEq Value := ⟨fun a b => a.compare b == .eq⟩

/-- The order conditions are decided by. -/
def partialCompare : Value → Value → Option Ordering
  | .int n, .float y => (Double.ofInt n.toInt).partialCompare y
  | .float x, .int n => x.partialCompare (Double.ofInt n.toInt)
  | a, b => if a.kindRank = b.kindRank then some (a.compare b) else none

/-- Whether the value stands in the given relation to the literal; values that do not compare never do. -/
def satisfies (v : Value) (op : Comparison) (literal : Value) : Bool :=
  (v.partialCompare literal).any op.accepts

/-! ### Text -/

mutual

/-- The value as text: strings quoted, byte strings by their length, records as `{name: value, …}`. -/
def text : Value → String
  | .null => "null"
  | .bool b => if b then "true" else "false"
  | .int n => toString n.toInt
  | .float x => x.text
  | .string s => Text.quoted s
  | .bytes data => "<" ++ toString data.length ++ " bytes>"
  | .record fields => "\x7b" ++ ", ".intercalate (fieldTexts fields) ++ "\x7d"

/-- The fields of a record as text. -/
def fieldTexts : List (String × Value) → List String
  | [] => []
  | (k, v) :: rest => (k ++ ": " ++ text v) :: fieldTexts rest

end

end Value

end HyperQuery
