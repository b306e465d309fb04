import HyperQuery.Query
import HyperQuery.Transaction

/-!
# Sessions

A session runs queries under a configuration. Every query is compiled and read to its end inside a transaction: the
active one, or else a new one that only reads.
-/

namespace HyperQuery

/-- Everything a session works with. -/
structure Database where
  graph : Graph
  transactions : Transactions
  meters : Meters

namespace Database

/-- The manager of the database's transactions. -/
def manager : TransactionManager Database :=
  Transactions.manager Database.transactions fun t db => { db with transactions := t }

/-- Adds what was spent to the meters. -/
def charge (db : Database) (spent : Meters) : Database := { db with meters := db.meters + spent }

/-- Runs a metered computation on the graph. -/
def run {α : Type} (work : Graph → Metered α) (db : Database) : Except QueryError α × Database :=
  let r := work db.graph
  (r.answer, db.charge r.meters)

/-- Runs a metered computation on the graph inside a transaction. -/
def readWithin {α : Type} (work : Graph → Metered α) (db : Database) : Outcome α × Database :=
  ensureTransaction manager true (fun db =>
    match db.run work with
    | (.ok a, db) => (.returned a, db)
    | (.error e, db) => (.failed e, db)) db

end Database

/-- A way of running queries. -/
structure Session where
  config : PlannerConfig

namespace Session

/-- Compiles a condition. -/
def compile (s : Session) (c : Condition) (g : Graph) : Metered CompiledQuery := (Planner.mk s.config g).compile c

/-- The explanation of the plan of a condition. -/
def explain (s : Session) (c : Condition) (g : Graph) : Metered PlanExplain := do
  return (← s.compile c g).explain g.catalog

/-- Compiles a condition, opens the query, works with the cursor and drops it. -/
def withCursor {α : Type} (s : Session) (c : Condition) (body : {σ : Type} → Navigation σ → Move σ α) (g : Graph) :
    Metered α := do
  let q ← s.compile c g
  (Cursor.run g body (← q.cursor g)).1

/-- Every result, in the order of the cursor. -/
def results (s : Session) (c : Condition) (g : Graph) : Metered (List AtomId) := s.withCursor c (fun n => n.drain) g

/-- The values of atoms. -/
def values (ids : List AtomId) (g : Graph) : Metered (List Value) := do
  let atoms ← (ids.mapM g.store.atom : Except QueryError (List Atom))
  return atoms.map Atom.value

/-- The number of results. If the estimate determines it, nothing is read. -/
def size (s : Session) (c : Condition) (g : Graph) : Metered Nat := do
  let q ← s.compile c g
  if q.estimate.isExact then
    Metered.spend .oneShortcut
    return q.estimate.upper
  else return (← (Cursor.run g (fun n => n.drain) (← q.cursor g)).1).length

/-- Finds the first result. -/
def findOne (s : Session) (c : Condition) : Database → Outcome (Option AtomId) × Database :=
  Database.readWithin (s.withCursor c fun n => n.next)

/-- Finds every result. -/
def findAll (s : Session) (c : Condition) : Database → Outcome (List AtomId) × Database :=
  Database.readWithin (s.results c)

/-- Finds the values of every result. -/
def findAllValues (s : Session) (c : Condition) : Database → Outcome (List Value) × Database :=
  Database.readWithin fun g => do values (← s.results c g) g

/-- Counts the results. -/
def count (s : Session) (c : Condition) : Database → Outcome Nat × Database :=
  Database.readWithin (s.size c)

end Session

end HyperQuery
