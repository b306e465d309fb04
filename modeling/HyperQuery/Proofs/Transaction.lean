import HyperQuery.Proofs.Condition.Truth
import HyperQuery.Session

/-!
# Transactions balance

A program on a database begins, commits and aborts transactions as it likes, runs bodies inside transactions, which
are programs again, and queries through sessions (`Program`). Whatever it does next may depend on all the answers it
has got. A journal notes the counts of transactions each time that they are touched (`Journal.host`), and has no other
effect (`Program.run_journal`).

However deep the bodies are nested, and whether they end the transaction that they were called in, or begin another
one in its place, or fail, every transaction begun is committed or aborted, or it is the active one
(`Program.balanced`).
-/

namespace HyperQuery

/-! ### Running a body inside a transaction -/

namespace TransactionManager

variable {σ τ α : Type}

/-- How a body that returned ends once its transaction is committed, or is not. -/
def settled (a : α) : Except QueryError Unit → Outcome α
  | .ok () => .returned a
  | .error e => .failed e

/-- Ends the transaction of a body as the body ended. -/
def finish (m : TransactionManager σ) : Outcome α × σ → Outcome α × σ
  | (.returned a, s) => (m.commit s).map (settled a) id
  | (.failed e, s) => (.failed e, m.abort s)
  | (.brokeOff, s) => (.brokeOff, m.abort s)

/-- Beginning, committing and aborting keep a property of the state. -/
structure Keeps (m : TransactionManager σ) (I : σ → Prop) : Prop where
  begin_ : ∀ {readOnly s}, I s → I (m.begin_ readOnly s).2
  commit : ∀ {s}, I s → I (m.commit s).2
  abort : ∀ {s}, I s → I (m.abort s)

/-- Seen through a view of the state, the manager does what another one does. -/
structure Shows (m : TransactionManager σ) (view : σ → τ) (m' : TransactionManager τ) : Prop where
  isActive : ∀ s, m'.isActive (view s) = m.isActive s
  begin_ : ∀ readOnly s, m'.begin_ readOnly (view s) = (m.begin_ readOnly s).map id view
  commit : ∀ s, m'.commit (view s) = (m.commit s).map id view
  abort : ∀ s, m'.abort (view s) = view (m.abort s)

variable {m : TransactionManager σ} {m' : TransactionManager τ} {readOnly : Bool} {body : σ → Outcome α × σ}
  {body' : τ → Outcome α × τ} {s t : σ} {view : σ → τ} {I : σ → Prop}

/-- A transaction that is active is used as it is. -/
theorem ensureTransaction_of_active (h : m.isActive s = true) : ensureTransaction m readOnly body s = body s := by
  rw [ensureTransaction, if_pos h]

theorem ensureTransaction_of_refused {e : QueryError} (h : m.isActive s = false)
    (hbegin : m.begin_ readOnly s = (.error e, t)) : ensureTransaction m readOnly body s = (.failed e, t) := by
  rw [ensureTransaction, if_neg (by simp [h]), hbegin]

/-- A transaction begun for a body ends as the body ends. -/
theorem ensureTransaction_of_begun (h : m.isActive s = false) (hbegin : m.begin_ readOnly s = (.ok (), t)) :
    ensureTransaction m readOnly body s = m.finish (body t) := by
  rw [ensureTransaction, if_neg (by simp [h]), hbegin]
  dsimp only
  rcases body t with ⟨a | e | _, u⟩
  · unfold finish
    dsimp only
    rcases m.commit u with ⟨e | _, v⟩ <;> rfl
  · rfl
  · rfl

theorem Keeps.finish (hm : m.Keeps I) {r : Outcome α × σ} (h : I r.2) : I (m.finish r).2 := by
  obtain ⟨a | e | _, s⟩ := r
  · exact hm.commit h
  · exact hm.abort h
  · exact hm.abort h

/-- Running a body inside a transaction keeps what the manager and the body keep. -/
theorem Keeps.ensureTransaction (hm : m.Keeps I) (hbody : ∀ t, I t → I (body t).2) (h : I s) :
    I (ensureTransaction m readOnly body s).2 := by
  have hbegin : I (m.begin_ readOnly s).2 := hm.begin_ h
  cases hactive : m.isActive s with
  | true =>
    rw [ensureTransaction_of_active hactive]
    exact hbody s h
  | false =>
    rcases hb : m.begin_ readOnly s with ⟨e | _, t⟩
    · rw [hb] at hbegin
      rwa [ensureTransaction_of_refused hactive hb]
    · rw [hb] at hbegin
      rw [ensureTransaction_of_begun hactive hb]
      exact hm.finish (hbody t hbegin)

theorem Shows.finish (hm : m.Shows view m') (r : Outcome α × σ) :
    m'.finish (r.map id view) = (m.finish r).map id view := by
  obtain ⟨a | e | _, s⟩ := r
  · exact congrArg (Prod.map (settled a) id) (hm.commit s)
  · exact congrArg (Prod.mk (Outcome.failed e)) (hm.abort s)
  · exact congrArg (Prod.mk Outcome.brokeOff) (hm.abort s)

/-- Seen through a view, running a body inside a transaction is running what is seen of the body. -/
theorem Shows.ensureTransaction (hm : m.Shows view m') (hbody : ∀ t, body' (view t) = (body t).map id view) :
    ensureTransaction m' readOnly body' (view s) = (ensureTransaction m readOnly body s).map id view := by
  have hbegin := hm.begin_ readOnly s
  cases hactive : m.isActive s with
  | true => rw [ensureTransaction_of_active hactive, ensureTransaction_of_active ((hm.isActive s).trans hactive), hbody]
  | false =>
    have hactive' := (hm.isActive s).trans hactive
    rcases hb : m.begin_ readOnly s with ⟨e | _, t⟩
    · rw [hb] at hbegin
      rw [ensureTransaction_of_refused hactive hb, ensureTransaction_of_refused hactive' hbegin]
      rfl
    · rw [hb] at hbegin
      rw [ensureTransaction_of_begun hactive hb, ensureTransaction_of_begun hactive' hbegin, ← hm.finish, ← hbody]

end TransactionManager

/-! ### Counts -/

namespace Transactions

variable {σ α : Type}

/-- Every transaction begun has been committed or aborted, apart from the active one. -/
def Balanced (t : Transactions) : Prop := t.begun = t.committed + t.aborted + if t.active then 1 else 0

variable {t : Transactions} {get : σ → Transactions} {set : Transactions → σ → σ}

theorem balanced_beginNew (h : t.Balanced) : t.beginNew.2.Balanced := by
  obtain ⟨active, begun, committed, aborted⟩ := t
  cases active with
  | true => exact h
  | false =>
    simp only [Balanced, beginNew, Bool.false_eq_true, if_false, if_true] at h ⊢
    omega

theorem balanced_commit (h : t.Balanced) : t.commit.2.Balanced := by
  obtain ⟨active, begun, committed, aborted⟩ := t
  cases active with
  | false => exact h
  | true =>
    simp only [Balanced, commit, Bool.false_eq_true, if_false, if_true] at h ⊢
    omega

theorem balanced_abort (h : t.Balanced) : t.abort.Balanced := by
  obtain ⟨active, begun, committed, aborted⟩ := t
  cases active with
  | false => exact h
  | true =>
    simp only [Balanced, abort, Bool.false_eq_true, if_false, if_true] at h ⊢
    omega

/-- What holds of every state into which balanced transactions are put is kept by their manager. -/
theorem keeps_manager {I : σ → Prop} (hget : ∀ {s}, I s → (get s).Balanced)
    (hset : ∀ {s t}, I s → t.Balanced → I (set t s)) : (manager get set).Keeps I where
  begin_ h := hset h (balanced_beginNew (hget h))
  commit h := hset h (balanced_commit (hget h))
  abort h := hset h (balanced_abort (hget h))

/-- However it ends, a transaction that was begun for a body leaves none active. -/
theorem finish_manager (hset : ∀ s t, get (set t s) = t) (r : Outcome α × σ) :
    (get ((manager get set).finish r).2).active = false := by
  have hcommit (t : Transactions) : t.commit.2.active = false := by
    unfold commit
    split
    · rfl
    · simpa using ‹¬ t.active = true›
  have habort (t : Transactions) : t.abort.active = false := by
    unfold abort
    split
    · rfl
    · simpa using ‹¬ t.active = true›
  obtain ⟨a | e | _, s⟩ := r
  · exact (congrArg active (hset _ _)).trans (hcommit _)
  · exact (congrArg active (hset _ _)).trans (habort _)
  · exact (congrArg active (hset _ _)).trans (habort _)

end Transactions

/-! ### Programs -/

/-- What a session is asked for. -/
inductive Query : Type → Type
  | findOne (s : Session) (c : Condition) : Query (Option AtomId)
  | findAll (s : Session) (c : Condition) : Query (List AtomId)
  | findAllValues (s : Session) (c : Condition) : Query (List Value)
  | count (s : Session) (c : Condition) : Query Nat

namespace Query

/-- Asks the session. -/
def run : {α : Type} → Query α → Database → Outcome α × Database
  | _, .findOne s c => s.findOne c
  | _, .findAll s c => s.findAll c
  | _, .findAllValues s c => s.findAllValues c
  | _, .count s c => s.count c

/-- What a session does on the graph for a query. -/
def work : {α : Type} → Query α → Graph → Metered α
  | _, .findOne s c => s.withCursor c fun n => n.next
  | _, .findAll s c => s.results c
  | _, .findAllValues s c => fun g => do Session.values (← s.results c g) g
  | _, .count s c => s.size c

theorem run_eq_readWithin {α : Type} (q : Query α) : q.run = Database.readWithin q.work := by
  cases q <;> rfl

end Query

/-- A program that handles transactions on one thread. It goes on with the answers that it gets, and with the endings of
the bodies that it runs inside transactions. -/
inductive Program : Type → Type 1
  | done {α : Type} (o : Outcome α) : Program α
  | begin_ {α : Type} (readOnly : Bool) (next : Except QueryError Unit → Program α) : Program α
  | commit {α : Type} (next : Except QueryError Unit → Program α) : Program α
  | abort {α : Type} (next : Program α) : Program α
  /-- Runs a program inside a transaction. -/
  | ensure {α β : Type} (readOnly : Bool) (body : Program β) (next : Outcome β → Program α) : Program α
  | query {α β : Type} (q : Query β) (next : Outcome β → Program α) : Program α

/-- Where programs are run: how transactions are handled, and how work is done on the graph inside one. -/
structure Host (σ : Type) where
  manager : TransactionManager σ
  read : {α : Type} → (Graph → Metered α) → σ → Outcome α × σ

/-- A database runs programs. -/
def Database.host : Host Database := ⟨Database.manager, Database.readWithin⟩

namespace Program

/-- Runs a program on a host. -/
def run {σ : Type} (h : Host σ) : {α : Type} → Program α → σ → Outcome α × σ
  | _, .done o, s => (o, s)
  | _, .begin_ readOnly next, s =>
    let r := h.manager.begin_ readOnly s
    (next r.1).run h r.2
  | _, .commit next, s =>
    let r := h.manager.commit s
    (next r.1).run h r.2
  | _, .abort next, s => next.run h (h.manager.abort s)
  | _, .ensure readOnly body next, s =>
    let r := ensureTransaction h.manager readOnly (body.run h) s
    (next r.1).run h r.2
  | _, .query q next, s =>
    let r := h.read q.work s
    (next r.1).run h r.2

variable {σ τ α : Type} {h : Host σ} {h' : Host τ} {view : σ → τ} {I : σ → Prop}

/-- A program keeps what its host keeps. -/
theorem keeps_run (hmanager : h.manager.Keeps I)
    (hread : ∀ {β : Type} (work : Graph → Metered β) s, I s → I (h.read work s).2) (P : Program α) {s : σ} (hs : I s) :
    I (P.run h s).2 := by
  induction P generalizing s with
  | done o => exact hs
  | begin_ readOnly next ih => exact ih _ (hmanager.begin_ hs)
  | commit next ih => exact ih _ (hmanager.commit hs)
  | abort next ih => exact ih (hmanager.abort hs)
  | ensure readOnly body next ihbody ih => exact ih _ (hmanager.ensureTransaction (fun _ => ihbody) hs)
  | query q next ih => exact ih _ (hread q.work s hs)

/-- Seen through a view, a program on one host does what it does on another one. -/
theorem run_shows (hmanager : h.manager.Shows view h'.manager)
    (hread : ∀ {β : Type} (work : Graph → Metered β) s, h'.read work (view s) = (h.read work s).map id view)
    (P : Program α) (s : σ) : P.run h' (view s) = (P.run h s).map id view := by
  induction P generalizing s with
  | done o => rfl
  | begin_ readOnly next ih =>
    unfold run
    rw [hmanager.begin_]
    exact ih _ _
  | commit next ih =>
    unfold run
    rw [hmanager.commit]
    exact ih _ _
  | abort next ih =>
    unfold run
    rw [hmanager.abort]
    exact ih _
  | ensure readOnly body next ihbody ih =>
    unfold run
    rw [hmanager.ensureTransaction ihbody]
    exact ih _ _
  | query q next ih =>
    unfold run
    rw [hread]
    exact ih _ _

end Program

/-! ### Journals -/

/-- A database with a journal of its transactions. -/
structure Journal where
  database : Database
  /-- The counts after each time that transactions were begun, committed or aborted, or refused to be. -/
  noted : List Transactions

namespace Journal

variable {α : Type}

/-- Puts counts into the database, and notes them. -/
def note (t : Transactions) (j : Journal) : Journal := ⟨{ j.database with transactions := t }, j.noted ++ [t]⟩

/-- The database's transactions, noted in the journal. -/
def manager : TransactionManager Journal := Transactions.manager (fun j => j.database.transactions) note

/-- Works on the graph. -/
def read (work : Graph → Metered α) (j : Journal) : Outcome α × Journal :=
  match j.database.run work with
  | (.ok a, db) => (.returned a, { j with database := db })
  | (.error e, db) => (.failed e, { j with database := db })

/-- A database runs programs, and keeps a journal of the transactions. -/
def host : Host Journal := ⟨manager, fun work => ensureTransaction manager true (read work)⟩

/-- All the counts noted balance, and so do those of the database. -/
structure Balanced (j : Journal) : Prop where
  noted : ∀ t ∈ j.noted, t.Balanced
  database : j.database.transactions.Balanced

theorem keeps_manager : manager.Keeps Balanced := by
  refine Transactions.keeps_manager (fun h => h.database) fun {j t} h ht => ⟨fun u hu => ?_, ht⟩
  rcases List.mem_append.mp hu with hu | hu
  · exact h.noted u hu
  · rwa [List.mem_singleton.mp hu]

theorem balanced_read {work : Graph → Metered α} {j : Journal} (h : j.Balanced) : (read work j).2.Balanced := by
  obtain ⟨hnoted, hdatabase⟩ := h
  unfold read Database.run
  dsimp only
  rcases (work j.database.graph).answer with e | a
  · exact ⟨hnoted, hdatabase⟩
  · exact ⟨hnoted, hdatabase⟩

theorem manager_shows : manager.Shows database Database.manager where
  isActive _ := rfl
  begin_ _ _ := rfl
  commit _ := rfl
  abort _ := rfl

end Journal

/-- Keeping a journal changes nothing. -/
theorem Program.run_journal {α : Type} (P : Program α) (j : Journal) :
    P.run Database.host j.database = (P.run Journal.host j).map id Journal.database := by
  refine P.run_shows Journal.manager_shows (fun work j => ?_) j
  refine Journal.manager_shows.ensureTransaction fun j => ?_
  unfold Journal.read Database.run
  dsimp only
  rcases (work j.database.graph).answer with e | a
  · rfl
  · rfl

theorem Program.balanced_journal {α : Type} (P : Program α) {j : Journal} (h : j.Balanced) :
    (P.run Journal.host j).2.Balanced := by
  refine P.keeps_run Journal.keeps_manager (fun work j hj => ?_) h
  exact Journal.keeps_manager.ensureTransaction (fun _ => Journal.balanced_read) hj

/-! ### Transactions of bodies and of queries -/

/-- What is run inside a transaction leaves none active that was not active before. -/
theorem Database.ensureTransaction_inactive {α : Type} {readOnly : Bool} {body : Database → Outcome α × Database}
    {db : Database} (h : db.transactions.active = false) :
    (ensureTransaction Database.manager readOnly body db).2.transactions.active = false := by
  have hbegin : Database.manager.begin_ readOnly db =
      (.ok (), { db with transactions := ⟨true, db.transactions.begun + 1, db.transactions.committed,
        db.transactions.aborted⟩ }) := by
    simp [Database.manager, Transactions.manager, Transactions.beginNew, h]
  rw [TransactionManager.ensureTransaction_of_begun h hbegin]
  exact Transactions.finish_manager (fun _ _ => rfl) _

/-- Work on the graph in an active transaction leaves the transactions alone. -/
theorem Database.readWithin_active {α : Type} {work : Graph → Metered α} {db : Database}
    (h : db.transactions.active = true) : (db.readWithin work).2.transactions = db.transactions := by
  unfold readWithin
  rw [TransactionManager.ensureTransaction_of_active h]
  unfold run
  dsimp only
  rcases (work db.graph).answer with e | a
  · rfl
  · rfl

/-- Work on the graph without an active transaction begins one, and ends it as the work ends. -/
theorem Database.readWithin_inactive {α : Type} {work : Graph → Metered α} {db : Database}
    (h : db.transactions.active = false) :
    (∃ a, (db.readWithin work).1 = .returned a ∧ (db.readWithin work).2.transactions =
        ⟨false, db.transactions.begun + 1, db.transactions.committed + 1, db.transactions.aborted⟩) ∨
      ∃ e, (db.readWithin work).1 = .failed e ∧ (db.readWithin work).2.transactions =
        ⟨false, db.transactions.begun + 1, db.transactions.committed, db.transactions.aborted + 1⟩ := by
  unfold readWithin ensureTransaction run
  rcases hwork : (work db.graph).answer with e | a
  · refine .inr ⟨e, ?_⟩
    simp [manager, Transactions.manager, Transactions.beginNew, Transactions.abort, h, hwork, charge]
  · refine .inl ⟨a, ?_⟩
    simp [manager, Transactions.manager, Transactions.beginNew, Transactions.commit, h, hwork, charge]

/-- Whatever a program does on a new manager of transactions, each time that it touches them the transactions begun are
those committed, those aborted and the active one. Running anything inside a transaction leaves none active if none was.
A query without an active transaction begins one, commits it if it returns and aborts it if it fails, and a query with
one changes no counts. -/
theorem Program.balanced {α : Type} (P : Program α) (g : Graph) (spent : Meters) :
    let db : Database := ⟨g, .initial, spent⟩
    let r := P.run Journal.host ⟨db, []⟩
    (P.run Database.host db = r.map id Journal.database ∧ (∀ t ∈ r.2.noted, t.Balanced) ∧
        r.2.database.transactions.Balanced) ∧
      (∀ {β : Type} (readOnly : Bool) (body : Program β) (db : Database), db.transactions.active = false →
        (ensureTransaction Database.manager readOnly (body.run Database.host) db).2.transactions.active = false) ∧
      ∀ {β : Type} (q : Query β) (db : Database),
        (db.transactions.active = true → (q.run db).2.transactions = db.transactions) ∧
        (db.transactions.active = false →
          (∃ a, (q.run db).1 = .returned a ∧ (q.run db).2.transactions =
            ⟨false, db.transactions.begun + 1, db.transactions.committed + 1, db.transactions.aborted⟩) ∨
          ∃ e, (q.run db).1 = .failed e ∧ (q.run db).2.transactions =
            ⟨false, db.transactions.begun + 1, db.transactions.committed, db.transactions.aborted + 1⟩) := by
  intro db r
  have hjournal : Journal.Balanced ⟨db, []⟩ := ⟨by simp, rfl⟩
  obtain ⟨hnoted, hdatabase⟩ := P.balanced_journal hjournal
  refine ⟨⟨P.run_journal ⟨db, []⟩, hnoted, hdatabase⟩,
    fun _ _ _ => Database.ensureTransaction_inactive, fun q db => ?_⟩
  rw [q.run_eq_readWithin]
  exact ⟨Database.readWithin_active, Database.readWithin_inactive⟩

/-- A body that aborts the transaction it was called in and commits another one, so that nothing is left to be committed
when it returns. -/
theorem Program.balanced_restarted :
    let db : Database := ⟨.ofStore .initial, .initial, .zero⟩
    let find : Query (List AtomId) := .findAll ⟨.permissive⟩ .any
    let body : Program Nat := .abort (.begin_ false fun _ => .query find fun _ => .commit fun _ => .done (.returned 0))
    let P : Program Nat := .ensure true body .done
    let r := P.run Journal.host ⟨db, []⟩
    r.1 = .failed (.transaction .noneActive) ∧
      r.2.noted = [⟨true, 1, 0, 0⟩, ⟨false, 1, 0, 1⟩, ⟨true, 2, 0, 1⟩, ⟨false, 2, 1, 1⟩, ⟨false, 2, 1, 1⟩] ∧
      (∀ t ∈ r.2.noted, t.Balanced) ∧
      (ensureTransaction Database.manager true (body.run Database.host) db).2.transactions.active = false ∧
      ((∃ ids, (find.run db).1 = .returned ids ∧ (find.run db).2.transactions = ⟨false, 1, 1, 0⟩) ∨
        ∃ e, (find.run db).1 = .failed e ∧ (find.run db).2.transactions = ⟨false, 1, 0, 1⟩) := by
  intro db find body P r
  obtain ⟨⟨-, hnoted, -⟩, hensure, hquery⟩ := P.balanced db.graph db.meters
  exact ⟨rfl, rfl, hnoted, hensure true body db rfl, (hquery find db).2 rfl⟩

end HyperQuery
