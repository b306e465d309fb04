import HyperQuery.Proofs.Transaction

/-!
# Transactions are released unless committing jams

A manager may fail to commit, and it may then keep the transaction active (`TransactionManager.Jams`). A transaction that
is begun for a body is over when the body fails or breaks off, and it is over when the body returns, unless committing
jams (`TransactionManager.released_iff`). Then nothing aborts it: the caller gets the error of the commit, and all that is
run inside a transaction later on is run inside this one, which none of it commits or aborts.
-/

namespace HyperQuery

namespace TransactionManager

variable {σ α : Type}

/-- What a manager promises. A commit that fails promises nothing. -/
structure Lawful (m : TransactionManager σ) : Prop where
  begin_ : ∀ {readOnly s t}, m.begin_ readOnly s = (.ok (), t) → m.isActive t = true
  commit : ∀ {s t}, m.commit s = (.ok (), t) → m.isActive t = false
  abort : ∀ s, m.isActive (m.abort s) = false

/-- Committing fails, and the transaction is still active afterwards. -/
def Jams (m : TransactionManager σ) (s : σ) : Prop := ∃ e t, m.commit s = (.error e, t) ∧ m.isActive t = true

variable {m : TransactionManager σ} {readOnly : Bool} {body : σ → Outcome α × σ} {s t : σ}

theorem jams_iff {e : QueryError} (h : m.commit s = (.error e, t)) : m.Jams s ↔ m.isActive t = true := by
  constructor
  · rintro ⟨e', t', hcommit, hactive⟩
    rw [h] at hcommit
    cases hcommit
    exact hactive
  · exact fun hactive => ⟨e, t, h, hactive⟩

theorem not_jams (h : m.commit s = (.ok (), t)) : ¬m.Jams s := by
  rintro ⟨e, t', hcommit, -⟩
  rw [h] at hcommit
  cases hcommit

/-- Ending a transaction as a body ended leaves none active, unless the body returned and committing jams. -/
theorem Lawful.finish_inactive_iff (hm : m.Lawful) (r : Outcome α × σ) :
    m.isActive (m.finish r).2 = false ↔ ∀ a, r.1 = .returned a → ¬m.Jams r.2 := by
  obtain ⟨a | e | _, u⟩ := r
  · rcases hcommit : m.commit u with ⟨e | _, v⟩
    · simp [finish, hcommit, jams_iff hcommit]
    · simp [finish, hcommit, hm.commit hcommit, not_jams hcommit]
  · simp [finish, hm.abort]
  · simp [finish, hm.abort]

/-- A transaction that is left active is one whose commit failed. -/
theorem Lawful.failed_of_finish_active (hm : m.Lawful) {r : Outcome α × σ} (h : m.isActive (m.finish r).2 = true) :
    ∃ e, (m.finish r).1 = .failed e := by
  obtain ⟨a | e | _, u⟩ := r
  · rcases hcommit : m.commit u with ⟨e | _, v⟩
    · exact ⟨e, by simp [finish, settled, hcommit]⟩
    · simp [finish, hcommit, hm.commit hcommit] at h
  · exact ⟨e, rfl⟩
  · simp [finish, hm.abort] at h

/-- A transaction that is begun for a body is over afterwards exactly if the body does not return, or committing does not
jam where it returns. If it is not over, the call has failed, and everything after it that is run inside a transaction is
run as it is. -/
theorem released_iff (hm : m.Lawful) (hactive : m.isActive s = false)
    (hbegin : m.begin_ readOnly s = (.ok (), t)) :
    let r := ensureTransaction m readOnly body s
    (m.isActive r.2 = false ↔ ∀ a, (body t).1 = .returned a → ¬m.Jams (body t).2) ∧
      (m.isActive r.2 = true → (∃ e, r.1 = .failed e) ∧
        ∀ {β : Type} (again : Bool) (later : σ → Outcome β × σ),
          ensureTransaction m again later r.2 = later r.2) := by
  intro r
  have hr : r = m.finish (body t) := ensureTransaction_of_begun hactive hbegin
  refine ⟨hr ▸ hm.finish_inactive_iff (body t),
    fun hleft => ⟨?_, fun again later => ensureTransaction_of_active hleft⟩⟩
  rw [hr] at hleft ⊢
  exact hm.failed_of_finish_active hleft

/-- A manager that refuses to commit, and keeps the transaction. Its state is whether one is active. -/
def refusing : TransactionManager Bool where
  isActive s := s
  begin_ _ _ := (.ok (), true)
  commit s := (.error (.transaction (.other "conflict")), s)
  abort _ := false

theorem lawful_refusing : refusing.Lawful where
  begin_ h := congrArg Prod.snd h.symm
  commit h := by simp [refusing] at h
  abort _ := rfl

/-- The transaction of a body that returns is left over, and the next body runs in it; that of a body that fails is
over. -/
theorem released_iff_refusing :
    let returns : Bool → Outcome Nat × Bool := fun s => (.returned 5, s)
    let fails : Bool → Outcome Nat × Bool := fun s => (.failed (.notFound "atom"), s)
    let left := ensureTransaction refusing true returns false
    let ended := ensureTransaction refusing true fails false
    refusing.Lawful ∧ refusing.isActive false = false ∧ refusing.begin_ true false = (.ok (), true) ∧
      left.1 = .failed (.transaction (.other "conflict")) ∧ refusing.isActive left.2 = true ∧
      ensureTransaction refusing true returns left.2 = (.returned 5, true) ∧ refusing.isActive ended.2 = false := by
  intro returns fails left ended
  have hbegin : refusing.begin_ true false = (.ok (), true) := rfl
  have hleft : (refusing.isActive left.2 = false ↔
        ∀ a, (returns true).1 = .returned a → ¬refusing.Jams (returns true).2) ∧
      (refusing.isActive left.2 = true → (∃ e, left.1 = .failed e) ∧
        ∀ {β : Type} (again : Bool) (later : Bool → Outcome β × Bool),
          ensureTransaction refusing again later left.2 = later left.2) :=
    released_iff lawful_refusing rfl hbegin
  have hended : (refusing.isActive ended.2 = false ↔
        ∀ a, (fails true).1 = .returned a → ¬refusing.Jams (fails true).2) ∧ _ :=
    released_iff lawful_refusing rfl hbegin
  have hactive : refusing.isActive left.2 = true := by
    rw [← Bool.not_eq_false, hleft.1]
    exact fun hall => hall 5 rfl ⟨_, true, rfl, rfl⟩
  exact ⟨lawful_refusing, rfl, hbegin, rfl, hactive, (hleft.2 hactive).2 true returns, hended.1.mpr (by simp [fails])⟩

/-- A body that changes nothing can leave its transaction active. -/
theorem exists_unreleased :
    ¬ ∀ (σ α : Type) (m : TransactionManager σ) (readOnly : Bool) (body : σ → Outcome α × σ) (s t : σ), m.Lawful →
      (∀ u, (body u).2 = u) → m.isActive s = false → m.begin_ readOnly s = (.ok (), t) →
        m.isActive (ensureTransaction m readOnly body s).2 = false := by
  intro hall
  have hover := hall Bool Nat refusing true (fun s => (.returned 5, s)) false true lawful_refusing (fun _ => rfl)
    rfl rfl
  simp [ensureTransaction, refusing] at hover

end TransactionManager

end HyperQuery
