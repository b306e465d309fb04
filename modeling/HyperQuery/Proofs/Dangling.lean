import HyperQuery.Proofs.Plan.Dangling
import HyperQuery.Proofs.Session

/-!
# Results of no stored atoms

The results of a condition without mappings are stored atoms, so that their values can be had, with one exception: where
all that an alternative of the condition asks for is to be reached by walks that include a handle as their start, the
handle is found even if no atom is stored under it (`Session.dangling_of_findAll`, `Session.finds_dangling`).
-/

namespace HyperQuery

namespace Planner

variable {p : Planner} {c : Condition} {q : CompiledQuery}

/-- Of the dangling handles a query without mappings reads those that are starts of all leaves of an alternative. -/
theorem dangles_of_compile (hstore : p.graph.store.Reachable) (hmap : c.mapDepth = 0) (hindex : c.Conforming)
    (h : (p.compile c).answer = .ok q) : q.plan.Dangles p.graph fun id =>
      ∃ d ∈ q.condition.alternatives, ∀ l ∈ d.leaves, l.includedStart? = some id := by
  obtain ⟨hnormal, f, hplan⟩ := planWith_of_compile hstore.consistent.1 hindex h
  obtain ⟨hprepare, -⟩ := answer_compile_eq_ok_iff.mp h
  have hdepth : q.condition.mapDepth ≤ 0 := hmap ▸ mapDepth_of_prepare hprepare
  refine dangles_planWith hstore hnormal (fun operand mapping hmem => ?_) hplan
  exact absurd (Nat.le_trans (Condition.mapDepth_le_of_mem_leaves hmem) hdepth) (by simp [Condition.mapDepth])

end Planner

namespace Session

variable {s : Session} {c : Condition} {g : Graph} {ids : List AtomId}

/-- Values are had of stored atoms. -/
theorem exists_values_iff : (∃ vs, (values ids g).answer = .ok vs) ↔ ∀ id ∈ ids, ∃ a, g.store.atom? id = some a := by
  constructor
  · rintro ⟨vs, h⟩ id hid
    obtain ⟨atoms, hatoms, -⟩ := Metered.answer_bind_eq_ok_iff.mp h
    obtain ⟨a, ha⟩ := exists_of_mapM_eq_ok hatoms id hid
    exact ⟨a, Store.atom?_of_atom ha⟩
  · intro h
    have hstored : ∀ id ∈ ids, ∃ a, g.store.atom id = .ok a := fun id hid => by
      obtain ⟨a, ha⟩ := h id hid
      exact ⟨a, by rw [Store.atom, ha]⟩
    obtain ⟨atoms, hatoms⟩ := exists_mapM_eq_ok hstored
    exact ⟨_, Metered.answer_bind_of_ok hatoms⟩

/-- Where the results of a condition without mappings can be found, the handles of no stored atoms among them are those
from which, in some alternative of the compiled condition, every leaf is a walk that starts there and includes its start.
The values of the results can be found exactly if there are none. Indexes that the condition names have to keep their
word. -/
theorem dangling_of_findAll {db db' other : Database} (hstore : db.graph.store.Reachable) (hmap : c.mapDepth = 0)
    (hindex : ∀ ty path index literal op, Condition.indexedPart ty path index literal op ∈ c.constraints →
      index.Conforms)
    (hfind : s.findAll c db = (.returned ids, db')) (hgraph : other.graph = db.graph) :
    ∃ q, (s.compile c db.graph).answer = .ok q ∧
      (∀ id, db.graph.store.atom? id = none →
        (id ∈ ids ↔ ∃ d ∈ q.condition.alternatives, ∀ l ∈ d.leaves, l.includedStart? = some id)) ∧
      ((∃ vs other', s.findAllValues c other = (.returned vs, other')) ↔
        ∀ id ∈ ids, ∃ a, db.graph.store.atom? id = some a) := by
  have hresults := Database.readWithin_returned_iff.mp ⟨db', hfind⟩
  obtain ⟨q, cur, hq, -⟩ := results_eq_ok_iff.mp hresults
  refine ⟨q, hq, fun id hid => ?_, ?_⟩
  · obtain ⟨items, ordered, hreads, hitems⟩ := Planner.dangles_of_compile hstore hmap hindex hq
    rw [eq_of_results hq hreads hresults]
    exact hitems id hid
  · have hvalues : (∃ vs other', s.findAllValues c other = (.returned vs, other')) ↔
        ∃ vs, (values ids db.graph).answer = .ok vs := by
      refine exists_congr fun vs => Database.readWithin_returned_iff.trans ?_
      rw [hgraph, Metered.answer_bind_of_ok hresults]
    exact hvalues.trans exists_values_iff

/-- A type, and the types that a handle of no stored atom subsumes, over a new store. -/
theorem dangling_of_findAll_subsumed :
    let db : Database := ⟨.ofStore .initial, .initial, .zero⟩
    let s : Session := ⟨.permissive⟩
    let c : Condition := .or [.ofType (.handle 1), .subsumed 99]
    (∃ db', s.findAll c db = (.returned [1, 2, 99], db')) ∧
      ∃ q, (s.compile c db.graph).answer = .ok q ∧
        (∀ id, db.graph.store.atom? id = none →
          (id ∈ [1, 2, 99] ↔ ∃ d ∈ q.condition.alternatives, ∀ l ∈ d.leaves, l.includedStart? = some id)) ∧
        ((∃ vs other', s.findAllValues c db = (.returned vs, other')) ↔
          ∀ id ∈ [1, 2, 99], ∃ a, db.graph.store.atom? id = some a) := by
  intro db s c
  have hfound : ∃ db', s.findAll c db = (.returned [1, 2, 99], db') :=
    Database.readWithin_returned_iff.mpr (by decide)
  have hindex : ∀ ty path index literal op, Condition.indexedPart ty path index literal op ∈ c.constraints →
      index.Conforms := by
    simp [c, Condition.constraints, Condition.constraintsOf]
  obtain ⟨db', hfind⟩ := hfound
  exact ⟨⟨db', hfind⟩, dangling_of_findAll .initial rfl hindex hfind rfl⟩

/-- A handle of no stored atom is found among the types that it subsumes, and no values are. -/
theorem finds_dangling :
    let db : Database := ⟨.ofStore .initial, .initial, .zero⟩
    let s : Session := ⟨.permissive⟩
    let c : Condition := .subsumed 99
    db.graph.store.Reachable ∧ c.mapDepth = 0 ∧ db.graph.store.atom? 99 = none ∧
      (∃ db', s.findAll c db = (.returned [99], db')) ∧
      ∃ db', s.findAllValues c db = (.failed (.missingAtom 99), db') := by
  intro db s c
  have hresults : (s.results c db.graph).answer = .ok [99] := by decide
  refine ⟨.initial, rfl, by decide, Database.readWithin_returned_iff.mpr hresults,
    Database.readWithin_failed_iff.mpr ?_⟩
  exact (Metered.answer_bind_of_ok hresults).trans rfl

end Session

end HyperQuery
