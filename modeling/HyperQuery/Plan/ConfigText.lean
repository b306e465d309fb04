import HyperQuery.Json.Number
import HyperQuery.Plan.Config
import HyperQuery.Error
import HyperQuery.Toml.Document

/-!
# Planner configuration as text

A configuration is written as a TOML document (`ofToml`) or as JSON (`ofJson?`). Keys that are missing have the
permissive settings, unknown keys are ignored.
-/

namespace HyperQuery.PlannerConfig

open Toml

/-! ### TOML -/

def readBool? : Item → Option Bool
  | .boolean b => some b
  | _ => none

/-- Reads a limit, which is a number of atoms. -/
def readLimit? : Item → Option Nat
  | .integer n => if 0 ≤ n then some n.toNat else none
  | _ => none

def visitOrder? : String → Option VisitOrder
  | "bfs" => some .breadthFirst
  | "dfs" => some .depthFirst
  | _ => none

/-- Whether an item is an array or a table without anything in it. -/
def isEmptyCollection : Item → Bool
  | .array items => items.isEmpty
  | .inlineTable _ entries => entries.isEmpty
  | .table _ _ entries => entries.isEmpty
  | _ => false

/-- Reads a visiting order: its name, or a table with something empty under its name. -/
def readVisitOrder? : Item → Option VisitOrder
  | .string name => visitOrder? name
  | .inlineTable _ [(name, item)] => if isEmptyCollection item then visitOrder? name else none
  | .table _ _ [(name, item)] => if isEmptyCollection item then visitOrder? name else none
  | _ => none

/-- The setting under a key, or the given one if the key is missing. -/
def setting? {α : Type} (t : Table) (key : String) (read : Item → Option α) (missing : α) : Option α :=
  match t.get? key with
  | some item => read item
  | none => some missing

/-- The configuration that a document holds. -/
def ofTable? (t : Table) : Option PlannerConfig := do
  return {
    allowFullScan := ← setting? t "allow_full_scan" readBool? permissive.allowFullScan
    visitOrder := ← setting? t "traversal_order" readVisitOrder? permissive.visitOrder
    materializeLimit := ← setting? t "materialize_limit" (fun item => (readLimit? item).map some)
      permissive.materializeLimit
    explainLiterals := ← setting? t "explain_literals" readBool? permissive.explainLiterals }

/-- Reads a configuration. -/
def ofToml (text : String) : Except QueryError PlannerConfig :=
  match (Toml.parse? text).bind ofTable? with
  | some config => .ok config
  | none => .error (.config "the document is not a planner configuration")

/-! ### JSON -/

def boolOfJson? : Json → Option Bool
  | .bool b => some b
  | _ => none

/-- A limit, or a null for none. -/
def limitOfJson? : Json → Option (Option Nat)
  | .null => some none
  | .number n => n.int?.bind fun n => if 0 ≤ n then some (some n.toNat) else none
  | _ => none

/-- A visiting order: its name, or an object with a null under its name. -/
def visitOrderOfJson? : Json → Option VisitOrder
  | .string (some name) => visitOrder? name
  | .object [(some name, .null)] => visitOrder? name
  | _ => none

/-- Changes the setting of the given name. -/
def setFromJson? (c : PlannerConfig) : JsonText × Json → Option PlannerConfig
  | (some "allow_full_scan", j) => (boolOfJson? j).map fun b => { c with allowFullScan := b }
  | (some "traversal_order", j) => (visitOrderOfJson? j).map fun order => { c with visitOrder := order }
  | (some "materialize_limit", j) => (limitOfJson? j).map fun limit => { c with materializeLimit := limit }
  | (some "explain_literals", j) => (boolOfJson? j).map fun b => { c with explainLiterals := b }
  | (some _, _) => some c
  | (none, _) => none

/-- The names of the settings, in their order. -/
def settingNames : List String := ["allow_full_scan", "traversal_order", "materialize_limit", "explain_literals"]

/-- Reads a configuration from an object of settings, or from an array of the first of them in their order. -/
def ofJson? : Json → Option PlannerConfig
  | .object fields => fields.foldlM setFromJson? permissive
  | .array items =>
    if items.length ≤ settingNames.length then
      ((settingNames.map some).zip items).foldlM setFromJson? permissive
    else none
  | _ => none

end HyperQuery.PlannerConfig
