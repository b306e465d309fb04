import HyperQuery.Proofs.Counting
import HyperQuery.Proofs.Safety
import HyperQuery.Session

/-!
# Counting agrees with finding

Work that a session does on the graph returns exactly what it answers there, since no transaction stands in its way
(`Database.readWithin_returned_iff`). So where all results of a condition can be found, they can be counted, and the
count is the number of results, with one exception: an estimate whose bounds meet counts the stored atoms only
(`count_of_findAll`). Mappings and walks can lead to other handles, which are then found but not counted
(`count_misses_unstored`).
-/

namespace HyperQuery

/-! ### Reading inside transactions -/

namespace Database

variable {α : Type} {work : Graph → Metered α} {db : Database}

/-- How work on the graph ends is up to what it answers, whether a transaction is active or not. -/
theorem readWithin_outcome :
    (db.readWithin work).1 = match (work db.graph).answer with
      | .ok a => .returned a
      | .error e => .failed e := by
  unfold readWithin ensureTransaction run
  rcases hactive : db.transactions.active with _ | _
  · rcases hwork : (work db.graph).answer with e | b
    · simp [manager, Transactions.manager, Transactions.beginNew, hactive, hwork, charge]
    · simp [manager, Transactions.manager, Transactions.beginNew, Transactions.commit, hactive, hwork, charge]
  · rcases hwork : (work db.graph).answer with e | b
    · simp [manager, Transactions.manager, hactive, hwork]
    · simp [manager, Transactions.manager, hactive, hwork]

private theorem exists_eq_iff {o : Outcome α} : (∃ db', db.readWithin work = (o, db')) ↔ (db.readWithin work).1 = o :=
  ⟨fun ⟨_, h⟩ => congrArg Prod.fst h, fun h => ⟨(db.readWithin work).2, Prod.ext h rfl⟩⟩

theorem readWithin_returned_iff {a : α} :
    (∃ db', db.readWithin work = (.returned a, db')) ↔ (work db.graph).answer = .ok a := by
  rw [exists_eq_iff, readWithin_outcome]
  cases (work db.graph).answer <;> simp

theorem readWithin_failed_iff {e : QueryError} :
    (∃ db', db.readWithin work = (.failed e, db')) ↔ (work db.graph).answer = .error e := by
  rw [exists_eq_iff, readWithin_outcome]
  cases (work db.graph).answer <;> simp

end Database

namespace Planner

variable {p : Planner} {c : Condition} {q : CompiledQuery}

theorem estimate_of_compile (h : (p.compile c).answer = .ok q) :
    q.condition.estimate p.graph = .ok q.estimate := (answer_compile_eq_ok_iff.mp h).2.1

end Planner

namespace Session

open Condition (Registered NormalFormOf Names)

variable {s : Session} {c : Condition} {g : Graph} {q : CompiledQuery} {ids : List AtomId}

/-! ### Finding and counting on a graph -/

/-- What is found is what draining the opened query answers. -/
theorem results_eq_ok_iff : (s.results c g).answer = .ok ids ↔
    ∃ q cur, (s.compile c g).answer = .ok q ∧ (q.cursor g).answer = .ok cur ∧
      (Cursor.run g (fun n => n.drain) cur).1.answer = .ok ids := by
  constructor
  · intro h
    obtain ⟨q, hq, h⟩ := Metered.answer_bind_eq_ok_iff.mp h
    obtain ⟨cur, hcur, h⟩ := Metered.answer_bind_eq_ok_iff.mp h
    exact ⟨q, cur, hq, hcur, h⟩
  · rintro ⟨q, cur, hq, hcur, h⟩
    exact Metered.answer_bind_eq_ok_iff.mpr ⟨q, hq, Metered.answer_bind_eq_ok_iff.mpr ⟨cur, hcur, h⟩⟩

/-- The size is the upper bound of an exact estimate, and otherwise that of what is found. -/
theorem size_of_results (hq : (s.compile c g).answer = .ok q) (h : (s.results c g).answer = .ok ids) :
    (s.size c g).answer = .ok (if q.estimate.isExact then q.estimate.upper else ids.length) := by
  unfold size
  rw [Metered.answer_bind_of_ok hq]
  cases hexact : q.estimate.isExact with
  | true => rfl
  | false =>
    obtain ⟨q', cur, hq', hcur, hdrain⟩ := results_eq_ok_iff.mp h
    rw [hq] at hq'
    cases hq'
    exact (Metered.answer_bind_of_ok hcur).trans (Metered.answer_bind_of_ok hdrain)

/-- What is found is what the plan of the compiled query reads. -/
theorem eq_of_results {items : List AtomId} {ordered : Bool} (hq : (s.compile c g).answer = .ok q)
    (hreads : q.plan.Reads g items ordered) (h : (s.results c g).answer = .ok ids) : ids = items := by
  obtain ⟨q', cur, hq', hcur, hdrain⟩ := results_eq_ok_iff.mp h
  rw [hq] at hq'
  cases hq'
  have hanswer : ((cur.blueprint.access g).toNavigation.drain cur.state).1.answer = .ok ids := hdrain
  rcases (CompiledQuery.reads_of_cursor hreads hcur).drain with hdrained | ⟨e, herror, -⟩
  · rw [hanswer] at hdrained
    exact Except.ok.inj hdrained
  · rw [hanswer] at herror
    simp at herror

/-- An exact estimate gives the number of stored atoms among what is found. -/
theorem length_stored_of_results (hstore : g.store.Reachable) (hindex : Registered g.store c.constraints)
    (hq : (s.compile c g).answer = .ok q) (hexact : q.estimate.isExact = true)
    (h : (s.results c g).answer = .ok ids) : (g.store.stored ids).length = q.estimate.upper := by
  have hconsistent := hstore.consistent.1
  have hconforming : c.Conforming := fun ty path index literal op hmem => IndexHandle.conforms_of_view
    (hconsistent.partIndexed (ty, path) index (Store.mem_of_lookup (hindex ty path index literal op hmem)))
  obtain ⟨items, hanswers⟩ := Planner.answers_of_compile hconsistent hconforming hq
  obtain ⟨ordered, hreads⟩ := hanswers.reads
  have hitems : ids = items := eq_of_results hq hreads h
  obtain ⟨e, hprepare, -⟩ := Planner.stages_of_compile hq
  have hnormal : NormalFormOf (Names fun ty path index => g.store.partIndex? ty path = some index) q.condition :=
    Condition.normalFormOf_names (fun _ _ _ hindex => hindex) hindex hprepare
  have hregistered : Registered g.store q.condition.constraints := Condition.names_iff_leaves.mpr hnormal.leaves
  rw [hitems]
  exact hanswers.length_stored_of_isExact hstore hnormal hregistered (Planner.estimate_of_compile hq) hexact

private theorem length_stored_eq_iff {s : Store} : (s.stored ids).length = ids.length ↔
    ∀ id ∈ ids, ∃ a, s.atom? id = some a := by
  rw [Store.stored, List.length_filter_eq_length_iff]
  simp only [Option.isSome_iff_exists]

/-! ### Finding and counting in a session -/

/-- Where every result of a condition can be found, counting succeeds on the same graph. The count is the number of
results, or that of the stored atoms among them if the estimate of the compiled condition is exact; so it is the number
of results exactly if an exact estimate leaves no result that is not stored. Indexes that the condition names have to be
the registered ones. -/
theorem count_of_findAll {db db' other : Database} (hstore : db.graph.store.Reachable)
    (hindex : ∀ ty path index literal op, Condition.indexedPart ty path index literal op ∈ c.constraints →
      db.graph.store.partIndex? ty path = some index)
    (hfind : s.findAll c db = (.returned ids, db')) (hgraph : other.graph = db.graph) :
    ∃ q n other', (s.compile c db.graph).answer = .ok q ∧ s.count c other = (.returned n, other') ∧
      n = (if q.estimate.isExact then (db.graph.store.stored ids).length else ids.length) ∧
      (n = ids.length ↔ (q.estimate.isExact = true → ∀ id ∈ ids, ∃ a, db.graph.store.atom? id = some a)) := by
  have hresults := Database.readWithin_returned_iff.mp ⟨db', hfind⟩
  obtain ⟨q, cur, hq, -⟩ := results_eq_ok_iff.mp hresults
  have hsize := size_of_results hq hresults
  rw [← hgraph] at hsize
  obtain ⟨other', hcount⟩ := Database.readWithin_returned_iff.mpr hsize
  refine ⟨q, _, other', hq, hcount, ?_⟩
  cases hexact : q.estimate.isExact with
  | false => simp
  | true =>
    have hstored := length_stored_of_results hstore hindex hq hexact hresults
    simp only [if_true, ← hstored, length_stored_eq_iff, forall_const, and_self]

/-- A type and the types of all atoms, over a new store: the mapping leads to stored atoms only. -/
theorem count_of_findAll_mapped :
    let db : Database := ⟨.ofStore .initial, .initial, .zero⟩
    let s : Session := ⟨.permissive⟩
    let c : Condition := .or [.ofType (.handle 1), .map .any .typeOf]
    (∃ db', s.findAll c db = (.returned [1, 2], db')) ∧
      ∃ q n other', (s.compile c db.graph).answer = .ok q ∧ s.count c db = (.returned n, other') ∧
        n = (if q.estimate.isExact then (db.graph.store.stored [1, 2]).length else 2) ∧
        (n = 2 ↔ (q.estimate.isExact = true → ∀ id ∈ [1, 2], ∃ a, db.graph.store.atom? id = some a)) := by
  intro db s c
  have hfound : ∃ db', s.findAll c db = (.returned [1, 2], db') :=
    Database.readWithin_returned_iff.mpr (by decide)
  have hindex : ∀ ty path index literal op, Condition.indexedPart ty path index literal op ∈ c.constraints →
      db.graph.store.partIndex? ty path = some index := by
    simp [c, Condition.constraints, Condition.constraintsOf]
  obtain ⟨db', hfind⟩ := hfound
  exact ⟨⟨db', hfind⟩, count_of_findAll .initial hindex hfind rfl⟩

-- an index that has been replaced says nothing about the atoms stored since
example : (do
    let (ty, typed) ← Store.initial.defineType "Point" .none []
    let indexed ← typed.createPartIndex ty "x" false
    let replaced ← indexed.createPartIndex ty "x" false
    let (_, s) ← replaced.addAtom ty (.record [("x", .int 5)])
    let c : Condition := .indexedPart ty "x" ⟨0, "Point.x", .hashed, none⟩ (.int 1) .gt
    let session : Session := ⟨.permissive⟩
    return (← (session.results c (.ofStore s)).answer, ← (session.size c (.ofStore s)).answer)) = .ok ([4], 0) := by
  decide

/-- The atoms of a new store and their images under a mapping that leads to no stored atoms: all of them are found, and
only the former are counted. -/
theorem count_misses_unstored :
    let shift : CustomMapping := ⟨"shift", fun _ id => .ok (some (id + 100))⟩
    let g : Graph := ⟨.initial, ⟨fun _ => ⟨"", .zero, fun _ _ => .ok true⟩, fun _ => shift⟩⟩
    let db : Database := ⟨g, .initial, .zero⟩
    let s : Session := ⟨.permissive⟩
    let c : Condition := .or [.any, .map .any (.custom 0)]
    g.store.Reachable ∧ (∃ db', s.findAll c db = (.returned [1, 2, 101, 102], db')) ∧
      ∃ db', s.count c db = (.returned 2, db') := by
  intro shift g db s c
  exact ⟨.initial, Database.readWithin_returned_iff.mpr (by decide +kernel),
    Database.readWithin_returned_iff.mpr (by decide +kernel)⟩

end Session

end HyperQuery
