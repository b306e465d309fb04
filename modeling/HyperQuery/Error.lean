/-!
# Errors

Why a condition cannot be planned (`PlanError`) and why a query or a change of the graph fails (`QueryError`).
Constructors are causes; `PlanError.message` and `QueryError.message` give the wording.
-/

namespace HyperQuery

/-- The handle of a stored atom. The order of handles is the order of every ordered result. -/
abbrev AtomId := Nat

/-- The text of a handle. -/
def AtomId.text (id : AtomId) : String := "#" ++ toString id

/-- What a condition, an index or a cursor does not support. -/
inductive Limitation
  | nullSearch
  | pointTestOfMapping
  | goToWithoutRandomAccess
  | goToOnUnordered
  | closestOnHashed
  | seekWithoutRandomAccess
  | seekOnUnorderedUnion
  | rangeOnUnorderedIndex
  | other (what : String)
  deriving DecidableEq

def Limitation.text : Limitation → String
  | .nullSearch => "search by null value"
  | .pointTestOfMapping => "point-wise test of a mapped condition"
  | .goToWithoutRandomAccess => "go_to on a result set without random access"
  | .goToOnUnordered => "go_to on an unordered snapshot"
  | .closestOnHashed => "closest-greater go_to on a hashed snapshot"
  | .seekWithoutRandomAccess => "seek on a composite without random access"
  | .seekOnUnorderedUnion => "seek on an unordered union"
  | .rangeOnUnorderedIndex => "range lookup on an unordered index"
  | .other what => what

/-- Why a condition has no plan. Conditions are carried as text. -/
inductive PlanError
  | notTranslatable (condition : String)
  | unsupported (what : Limitation)
  | unknownType (name : String)
  | fullScanDisabled (condition : String)
  deriving DecidableEq

namespace PlanError

/-- The advice given with a condition that matches too broadly. -/
def narrowingHint : String := "constrain by type, incidence, or an indexed value"

/-- The machine-readable name of the cause. -/
def code : PlanError → String
  | .notTranslatable _ => "NotTranslatable"
  | .unsupported _ => "UnsupportedConstraint"
  | .unknownType _ => "UnknownType"
  | .fullScanDisabled _ => "FullScanDisabled"

def message : PlanError → String
  | .notTranslatable condition =>
    "condition " ++ condition ++ " is not query-translatable, nor a predicate; " ++ narrowingHint
  | .unsupported what => "unsupported: " ++ what.text
  | .unknownType name => "unknown type '" ++ name ++ "'"
  | .fullScanDisabled condition => "condition " ++ condition ++ " requires a full scan; " ++ narrowingHint

/-- The message with its code in front. -/
def codedMessage (e : PlanError) : String := "[" ++ e.code ++ "] " ++ e.message

end PlanError

/-- A misuse of transactions. -/
inductive TransactionFault
  | alreadyActive
  | noneActive
  | other (reason : String)
  deriving DecidableEq

def TransactionFault.text : TransactionFault → String
  | .alreadyActive => "transaction already active on this thread"
  | .noneActive => "commit without an active transaction"
  | .other reason => reason

/-- Why a query, a cursor move or a change of the graph fails. -/
inductive QueryError
  | unreadable (reason : String)
  | notFound (what : String)
  | missingAtom (id : AtomId)
  | invalid (reason : String)
  | duplicateType (name : String)
  | oversizedSet (size limit : Nat)
  | plan (cause : PlanError)
  | noCurrentElement
  | cursorClosed
  | transaction (fault : TransactionFault)
  | config (reason : String)
  deriving DecidableEq

namespace QueryError

def message : QueryError → String
  | .unreadable reason => "IO: " ++ reason
  | .notFound what => what ++ " not found"
  | .missingAtom id => "atom " ++ AtomId.text id ++ " not found"
  | .invalid reason => "invalid argument: " ++ reason
  | .duplicateType name => "invalid argument: type '" ++ name ++ "' already defined"
  | .oversizedSet size limit =>
    "invalid argument: materialized set of " ++ toString size ++ " atoms exceeds the limit of " ++ toString limit
  | .plan cause => cause.message
  | .noCurrentElement => "result set has no current element"
  | .cursorClosed => "result set is closed"
  | .transaction fault => "transaction: " ++ fault.text
  | .config reason => "config: " ++ reason

/-- The error for something that is not supported. -/
def unsupported (what : Limitation) : QueryError := .plan (.unsupported what)

end QueryError

end HyperQuery
