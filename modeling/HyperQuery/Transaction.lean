import HyperQuery.Error

/-!
# Transactions

A transaction manager begins, commits and aborts the one transaction that can be active. `ensureTransaction` runs a
body inside a transaction: the active one if there is one, or else a new one, which is committed or aborted according to
how the body ends.
-/

namespace HyperQuery

/-- How a body of work ends. -/
inductive Outcome (α : Type)
  | returned (a : α)
  | failed (e : QueryError)
  /-- The body broke off and nothing after it is run. -/
  | brokeOff

/-- A manager of transactions that is part of a state `σ`. -/
structure TransactionManager (σ : Type) where
  isActive : σ → Bool
  begin_ : (readOnly : Bool) → σ → Except QueryError Unit × σ
  commit : σ → Except QueryError Unit × σ
  /-- Ends the transaction; this cannot fail. -/
  abort : σ → σ

/-- Runs a body inside a transaction. -/
def ensureTransaction {σ α : Type} (manager : TransactionManager σ) (readOnly : Bool) (body : σ → Outcome α × σ)
    (s : σ) : Outcome α × σ :=
  if manager.isActive s then body s
  else
    match manager.begin_ readOnly s with
    | (.error e, s) => (.failed e, s)
    | (.ok (), s) =>
      match body s with
      | (.returned a, s) =>
        match manager.commit s with
        | (.ok (), s) => (.returned a, s)
        | (.error e, s) => (.failed e, s)
      | (.failed e, s) => (.failed e, manager.abort s)
      | (.brokeOff, s) => (.brokeOff, manager.abort s)

/-- Transactions that only keep count. -/
structure Transactions where
  active : Bool
  begun : Nat
  committed : Nat
  aborted : Nat
  deriving DecidableEq

namespace Transactions

def initial : Transactions := ⟨false, 0, 0, 0⟩

def beginNew (t : Transactions) : Except QueryError Unit × Transactions :=
  if t.active then (.error (.transaction .alreadyActive), t)
  else (.ok (), { t with active := true, begun := t.begun + 1 })

def commit (t : Transactions) : Except QueryError Unit × Transactions :=
  if t.active then (.ok (), { t with active := false, committed := t.committed + 1 })
  else (.error (.transaction .noneActive), t)

/-- Aborts the active transaction; without one nothing happens. -/
def abort (t : Transactions) : Transactions :=
  if t.active then { t with active := false, aborted := t.aborted + 1 } else t

/-- The manager of counted transactions that are part of a state. -/
def manager {σ : Type} (get : σ → Transactions) (set : Transactions → σ → σ) : TransactionManager σ where
  isActive := fun s => (get s).active
  begin_ := fun _ s =>
    let (r, t) := (get s).beginNew
    (r, set t s)
  commit := fun s =>
    let (r, t) := (get s).commit
    (r, set t s)
  abort := fun s => set (get s).abort s

end Transactions

end HyperQuery
