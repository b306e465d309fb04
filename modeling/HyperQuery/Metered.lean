import HyperQuery.Error

/-!
# Metered computations

Reading the graph has a cost that can be observed: scans are counted, and so are filter tests, opened queries and
the like. A `Metered α` is an answer, which may be an error, together with what was spent on the way to it, and a
`Move σ α` is a metered computation on a state `σ`. An error keeps what was spent, and a move that fails keeps the
state reached so far. `answer_bind` and `meters_bind` split a sequence into its answers and its costs.
-/

namespace HyperQuery

/-- Counts of observable work. -/
structure Meters where
  /-- Cursors handed out by the graph, and listings of index keys. -/
  scans : Nat
  /-- Conditions compiled. -/
  compiles : Nat
  /-- Compiled queries opened. -/
  opens : Nat
  /-- Candidates tested by filters. -/
  evals : Nat
  /-- Candidates rejected by filters. -/
  rejects : Nat
  /-- Membership sets built. -/
  materializations : Nat
  /-- Atoms collected into membership sets. -/
  materialized : Nat
  /-- Counts answered from size bounds. -/
  shortcuts : Nat
  deriving DecidableEq

namespace Meters

/-- Nothing spent. -/
def zero : Meters := ⟨0, 0, 0, 0, 0, 0, 0, 0⟩

def add (a b : Meters) : Meters :=
  ⟨a.scans + b.scans, a.compiles + b.compiles, a.opens + b.opens, a.evals + b.evals, a.rejects + b.rejects,
    a.materializations + b.materializations, a.materialized + b.materialized, a.shortcuts + b.shortcuts⟩

instance : Add Meters := ⟨add⟩

/-- Everything but the scans set back to zero. -/
def resetProfile (m : Meters) : Meters := { zero with scans := m.scans }

def oneScan : Meters := { zero with scans := 1 }
def oneCompile : Meters := { zero with compiles := 1 }
def oneOpen : Meters := { zero with opens := 1 }
def oneShortcut : Meters := { zero with shortcuts := 1 }

/-- One candidate tested by a filter. -/
def oneEval (passed : Bool) : Meters := { zero with evals := 1, rejects := if passed then 0 else 1 }

/-- One membership set of the given size built. -/
def oneMaterialization (atoms : Nat) : Meters := { zero with materializations := 1, materialized := atoms }

@[simp] theorem zero_add (a : Meters) : zero + a = a := by
  show add zero a = a
  cases a; simp [add, zero]

@[simp] theorem add_zero (a : Meters) : a + zero = a := by
  show add a zero = a
  cases a; simp [add, zero]

theorem add_assoc (a b c : Meters) : a + b + c = a + (b + c) := by
  show add (add a b) c = add a (add b c)
  simp only [add, Nat.add_assoc]

end Meters

/-- An answer with what was spent on it. -/
structure Metered (α : Type) where
  answer : Except QueryError α
  meters : Meters

namespace Metered

/-- An answer that costs nothing. -/
def ofExcept {α : Type} (r : Except QueryError α) : Metered α := ⟨r, .zero⟩

/-- Fails with the given error. -/
def fail {α : Type} (e : QueryError) : Metered α := ofExcept (.error e)

/-- Spends without an answer. -/
def spend (m : Meters) : Metered Unit := ⟨.ok (), m⟩

protected def bind {α β : Type} (x : Metered α) (f : α → Metered β) : Metered β :=
  match x.answer with
  | .ok a => ⟨(f a).answer, x.meters + (f a).meters⟩
  | .error e => ⟨.error e, x.meters⟩

instance : Monad Metered where
  pure a := ⟨.ok a, .zero⟩
  bind := Metered.bind

instance : MonadLift (Except QueryError) Metered := ⟨ofExcept⟩

variable {α β : Type}

@[simp] theorem answer_pure (a : α) : (pure a : Metered α).answer = .ok a := rfl

@[simp] theorem meters_pure (a : α) : (pure a : Metered α).meters = .zero := rfl

/-- The answers of a sequence do not depend on its costs. -/
theorem answer_bind (x : Metered α) (f : α → Metered β) :
    (x >>= f).answer = x.answer >>= fun a => (f a).answer := by
  show (Metered.bind x f).answer = _
  unfold Metered.bind
  cases x.answer <;> rfl

/-- A sequence costs what its parts cost, up to the first error. -/
theorem meters_bind (x : Metered α) (f : α → Metered β) :
    (x >>= f).meters = match x.answer with
      | .ok a => x.meters + (f a).meters
      | .error _ => x.meters := by
  show (Metered.bind x f).meters = _
  unfold Metered.bind
  cases x.answer <;> rfl

end Metered

/-- A metered computation on a state. When it fails, the state reached so far remains. -/
def Move (σ α : Type) : Type := σ → Metered α × σ

namespace Move

variable {σ τ α β : Type}

protected def bind (m : Move σ α) (f : α → Move σ β) : Move σ β := fun s =>
  match m s with
  | (⟨.ok a, spent⟩, s') =>
    let (r, s'') := f a s'
    (⟨r.answer, spent + r.meters⟩, s'')
  | (⟨.error e, spent⟩, s') => (⟨.error e, spent⟩, s')

instance : Monad (Move σ) where
  pure a s := (pure a, s)
  bind := Move.bind

instance : MonadLift Metered (Move σ) := ⟨fun x s => (x, s)⟩

/-- Fails with the given error, leaving the state. -/
def fail (e : QueryError) : Move σ α := fun s => (Metered.fail e, s)

/-- The state. -/
def read : Move σ σ := fun s => (pure s, s)

/-- Replaces the state by a function of it. -/
def update (f : σ → σ) : Move σ Unit := fun s => (pure (), f s)

/-- Works on a part of the state. -/
def onPart (get : τ → σ) (set : σ → τ → τ) (m : Move σ α) : Move τ α := fun t =>
  let (r, s) := m (get t)
  (r, set s t)

/-- Works on the first of two states. -/
def onFst (m : Move σ α) : Move (σ × τ) α := onPart Prod.fst (fun s t => (s, t.2)) m

/-- Works on the second of two states. -/
def onSnd (m : Move τ α) : Move (σ × τ) α := onPart Prod.snd (fun s t => (t.1, s)) m

@[simp] theorem pure_apply (a : α) (s : σ) : (pure a : Move σ α) s = (pure a, s) := rfl

theorem bind_ok {m : Move σ α} {f : α → Move σ β} {s s' : σ} {a : α} {spent : Meters}
    (h : m s = (⟨.ok a, spent⟩, s')) :
    (m >>= f) s = (⟨(f a s').1.answer, spent + (f a s').1.meters⟩, (f a s').2) := by
  show Move.bind m f s = _
  unfold Move.bind; rw [h]

theorem bind_error {m : Move σ α} {f : α → Move σ β} {s s' : σ} {e : QueryError} {spent : Meters}
    (h : m s = (⟨.error e, spent⟩, s')) : (m >>= f) s = (⟨.error e, spent⟩, s') := by
  show Move.bind m f s = _
  unfold Move.bind; rw [h]

end Move

end HyperQuery
