import HyperQuery.Hash.XXH64
import HyperQuery.Json.Basic
import HyperQuery.Plan.Basic

/-!
# Explaining plans

A plan is explained as a tree of operators with properties (`Plan.explain`). Properties that hold literals can be
hidden (`ExplainNode.redact`). The tree is also what the hash of a plan is taken of: `ExplainNode.stream` lists the
bytes and `Plan.hash` hashes them.
-/

namespace HyperQuery

/-- A property of an operator. -/
structure ExplainProp where
  key : String
  value : String
  /-- Whether the value shows a literal. -/
  redactable : Bool
  deriving DecidableEq

/-- An operator of a plan. -/
inductive ExplainNode
  | node (op : String) (props : List ExplainProp) (inputs : List ExplainNode)

namespace ExplainProp

def plain (key value : String) : ExplainProp := ⟨key, value, false⟩

def literal (key value : String) : ExplainProp := ⟨key, value, true⟩

def redact (p : ExplainProp) : ExplainProp := if p.redactable then { p with value := "<redacted>" } else p

def json (p : ExplainProp) : Json :=
  .object [(some "key", .string (some p.key)), (some "value", .string (some p.value)),
    (some "redactable", .bool p.redactable)]

end ExplainProp

namespace ExplainNode

mutual

/-- The tree without literals. -/
def redact : ExplainNode → ExplainNode
  | .node op props inputs => .node op (props.map ExplainProp.redact) (redactAll inputs)

/-- Trees without literals. -/
def redactAll : List ExplainNode → List ExplainNode
  | [] => []
  | n :: rest => redact n :: redactAll rest

end

mutual

/-- One line per operator, its inputs below it and indented. -/
def lines (depth : Nat) : ExplainNode → List String
  | .node op props inputs =>
    (String.ofList (List.replicate (2 * depth) ' ') ++ op
      ++ String.join (props.map fun p => " " ++ p.key ++ "=" ++ p.value)) :: allLines (depth + 1) inputs

/-- The lines of several operators. -/
def allLines (depth : Nat) : List ExplainNode → List String
  | [] => []
  | n :: rest => lines depth n ++ allLines depth rest

end

mutual

def json : ExplainNode → Json
  | .node op props inputs =>
    .object [(some "op", .string (some op)), (some "props", .array (props.map ExplainProp.json)),
      (some "inputs", .array (jsonAll inputs))]

/-- Several operators as JSON. -/
def jsonAll : List ExplainNode → List Json
  | [] => []
  | n :: rest => json n :: jsonAll rest

end

/-- The bytes of a text. -/
def textBytes (s : String) : List UInt8 := s.toUTF8.toList

/-- The lowest eight bytes of a number, the lowest one first. -/
def countBytes (n : Nat) : List UInt8 := (List.range 8).map fun i => UInt8.ofNat (n >>> (8 * i))

mutual

/-- The bytes that are hashed: the operator, its properties, the number of its inputs, and the inputs. -/
def stream : ExplainNode → List UInt8
  | .node op props inputs =>
    textBytes op ++ (props.flatMap fun p => textBytes p.key ++ textBytes p.value)
      ++ countBytes inputs.length ++ streamAll inputs

/-- The bytes of several operators. -/
def streamAll : List ExplainNode → List UInt8
  | [] => []
  | n :: rest => stream n ++ streamAll rest

end

end ExplainNode

mutual

/-- The plan as a tree of operators. -/
def Plan.explain (catalog : Catalog) : Plan → ExplainNode
  | .empty => .node "Empty" [] []
  | .fullScan => .node "FullScan" [] []
  | .typeScan ty => .node "TypeScan" [.plain "type" (AtomId.text ty)] []
  | .indexLookup index key op =>
    .node "IndexLookup" [.plain "index" index.name, .plain "op" op.symbol, .literal "key" key.text] []
  | .incidence id => .node "Incidence" [.plain "atom" (AtomId.text id)] []
  | .targetSet link => .node "TargetSet" [.plain "link" (AtomId.text link)] []
  | .traversal walk => .node "Traversal" [.plain "walk" walk.text] []
  | .zigZag left right => .node "ZigZagIntersect" [] [left.explain catalog, right.explain catalog]
  | .sortedMerge left right => .node "SortedMergeIntersect" [] [left.explain catalog, right.explain catalog]
  | .union left right => .node "Union" [] [left.explain catalog, right.explain catalog]
  | .filter base steps => .node "Filter" [] (base.explain catalog :: FilterStep.explainAll catalog steps)
  | .map base mapping => .node "Map" [.plain "mapping" (mapping.text catalog)] [base.explain catalog]

/-- The step as an operator. -/
def FilterStep.explain (catalog : Catalog) : FilterStep → ExplainNode
  | .predicate condition cost =>
    .node "Predicate" [.literal "condition" (condition.text catalog), .plain "cost" (cost.fixed 2)] []
  | .membership plan cost => .node "Membership" [.plain "cost" (cost.fixed 2)] [plan.explain catalog]
  | .materialized plan => .node "Materialize" [] [plan.explain catalog]

/-- Several steps as operators. -/
def FilterStep.explainAll (catalog : Catalog) : List FilterStep → List ExplainNode
  | [] => []
  | step :: rest => step.explain catalog :: FilterStep.explainAll catalog rest

end

/-- The hash of a plan, literals included. -/
def Plan.hash (catalog : Catalog) (p : Plan) : UInt64 := XXH64.hash 0 (p.explain catalog).stream

/-- An explained plan. -/
structure PlanExplain where
  root : ExplainNode
  hash : UInt64

namespace PlanExplain

/-- The hash in sixteen hexadecimal digits. -/
def hashText (hash : UInt64) : String :=
  let digits := Nat.toDigits 16 hash.toNat
  String.ofList (List.replicate (16 - digits.length) '0' ++ digits)

/-- The explanation as lines of text. -/
def text (e : PlanExplain) : String :=
  String.join ((("plan " ++ hashText e.hash) :: e.root.lines 0).map fun line => line ++ "\n")

/-- The explanation as JSON. -/
def json (e : PlanExplain) : Json :=
  .object [(some "root", e.root.json), (some "plan_hash", .number (JsonNumber.ofInt e.hash.toNat))]

end PlanExplain

end HyperQuery
