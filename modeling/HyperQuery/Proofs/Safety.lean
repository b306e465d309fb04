import HyperQuery.Proofs.Cursor.Protocol
import HyperQuery.Proofs.Plan.Nested
import HyperQuery.Proofs.Query

/-!
# Compiled queries do not go wrong

What planning rules out does not happen when a query runs: every seek is made on a cursor that supports it, every range
is looked up in an index that keeps its keys in order, and neither mapped conditions nor comparisons with null are tested
on single atoms. All of these would fail with a plan error, and a query that compiles does not (`safe_of_compile`).
-/

namespace HyperQuery

namespace CompiledQuery

variable {q : CompiledQuery} {g : Graph} {items : List AtomId} {ordered : Bool}

/-- Where a compiled query cannot be opened, its plan reads nothing. -/
theorem readError_of_cursor (hreads : q.plan.Reads g items ordered) {e : QueryError}
    (h : (q.cursor g).answer = .error e) : g.ReadError e := by
  rcases Metered.answer_bind_eq_error_iff.mp h with h | ⟨_, -, h⟩
  · simp [Metered.spend] at h
  · rcases Metered.answer_bind_eq_error_iff.mp h with h | ⟨s, -, h⟩
    · exact (hreads _).opens e h
    · simp at h

/-- An opened query reads what its plan reads. -/
theorem reads_of_cursor (hreads : q.plan.Reads g items ordered) {cur : Cursor} (h : (q.cursor g).answer = .ok cur) :
    (cur.blueprint.access g).toNavigation.Reads g.ReadError cur.state items ordered := by
  obtain ⟨s, hs, rfl⟩ := answer_cursor_eq_ok_iff.mp h
  exact (hreads _).reads s hs

end CompiledQuery

/-- The error is none that planning rules out, and a cursor that is closed or has no element is complained about only
where a function supplied by a user does so. -/
structure Graph.Tolerates (g : Graph) (e : QueryError) : Prop where
  notPlan : ∀ cause, e ≠ .plan cause
  closed : e = .cursorClosed → g.catalog.Raises g.store e
  noElement : e = .noCurrentElement → g.catalog.Raises g.store e

theorem Graph.ReadError.tolerates {g : Graph} {e : QueryError} (h : g.ReadError e)
    (hraises : ∀ cause, ¬ g.catalog.Raises g.store (.plan cause)) : g.Tolerates e := by
  cases h with
  | missing id => exact ⟨by simp, by simp, by simp⟩
  | oversized size limit => exact ⟨by simp, by simp, by simp⟩
  | raised h =>
    refine ⟨?_, fun _ => h, fun _ => h⟩
    rintro cause rfl
    exact hraises cause h

namespace Planner

open Condition (Conforming NormalFormOf)

variable {p : Planner} {c : Condition} {q : CompiledQuery}

/-- A query is compiled into the plan of a condition in disjunctive normal form that names indexes which keep their word
only, if the condition it is compiled from does so. -/
theorem planWith_of_compile (hstore : p.graph.store.Consistent) (hindex : c.Conforming)
    (h : (p.compile c).answer = .ok q) :
    NormalFormOf Conforming q.condition ∧ ∃ f, p.planWith f q.condition = .ok q.plan := by
  obtain ⟨hprepare, -, hplan, -⟩ := answer_compile_eq_ok_iff.mp h
  obtain ⟨f, hf⟩ := exists_plan_eq p q.condition
  exact ⟨Condition.normalFormOf_conforming hstore hindex hprepare, f, hf.symm.trans hplan⟩

/-- The plan of a query that compiles answers the condition it was prepared to. -/
theorem answers_of_compile (hstore : p.graph.store.Consistent) (hindex : c.Conforming)
    (h : (p.compile c).answer = .ok q) : ∃ items, q.plan.Answers p.graph q.condition items := by
  obtain ⟨e, hprepare, -, hplan, -⟩ := stages_of_compile h
  exact answers_planNested hstore _ (Condition.normalFormOf_conforming hstore hindex hprepare) hplan

/-- A query that compiles does not go wrong: neither opening it nor any number of steps forward, continued after errors,
fails with a plan error, or with the errors of a cursor that is closed or has no element unless a function supplied by a
user fails with them. The indexes that the condition names, under negations and mappings as well, have to be those of a
store, and functions supplied by users must not fail with plan errors. -/
theorem safe_of_compile (hstore : p.graph.store.Reachable)
    (hindex : ∀ ty path index literal op, Condition.indexedPart ty path index literal op ∈ c.constraints →
      index.view = none)
    (hraises : ∀ cause, ¬ p.graph.catalog.Raises p.graph.store (.plan cause))
    (hcompile : (p.compile c).answer = .ok q) :
    (∀ e, (q.cursor p.graph).answer = .error e → p.graph.Tolerates e) ∧
      ∀ cur, (q.cursor p.graph).answer = .ok cur → ∀ k e,
        .error e ∈ (cur.blueprint.access p.graph).toNavigation.replies (.replicate k .next) cur.state →
          p.graph.Tolerates e := by
  have hconforming : c.Conforming := fun ty path index literal op hmem =>
    IndexHandle.conforms_of_view (hindex ty path index literal op hmem)
  obtain ⟨items, hanswers⟩ := answers_of_compile hstore.consistent.1 hconforming hcompile
  obtain ⟨ordered, hreads⟩ := hanswers.reads
  refine ⟨fun e he => ?_, fun cur hcur k e he => ?_⟩
  · exact (CompiledQuery.readError_of_cursor hreads he).tolerates hraises
  · exact ((CompiledQuery.reads_of_cursor hreads hcur).replies_next k he).tolerates hraises

/-- A walk, a mapped conjunction and a predicate together, over the store with the value 5. -/
theorem safe_of_compile_nested :
    let p : Planner := ⟨.permissive, .ofStore (Condition.oneValueStore (.int 5))⟩
    let c : Condition := .and [.subsumes 3, .map (.and [.incident 1, .predicate 0]) .typeOf,
      .or [.predicate 1, .not (.value (.int 7) .eq)]]
    ∃ q, (p.compile c).answer = .ok q ∧ (∀ e, (q.cursor p.graph).answer = .error e → p.graph.Tolerates e) ∧
      ∀ cur, (q.cursor p.graph).answer = .ok cur → ∀ k e,
        .error e ∈ (cur.blueprint.access p.graph).toNavigation.replies (.replicate k .next) cur.state →
          p.graph.Tolerates e := by
  intro p c
  have hok : (p.compile c).answer.isOk = true := by
    set_option maxRecDepth 2000 in decide
  obtain ⟨q, hq⟩ := exists_of_isOk hok
  have hindex : ∀ ty path index literal op, Condition.indexedPart ty path index literal op ∈ c.constraints →
      index.view = none := by
    simp [c, Condition.constraints, Condition.constraintsOf]
  have hraises : ∀ cause, ¬ p.graph.catalog.Raises p.graph.store (.plan cause) := by
    intro cause h
    cases h with
    | predicate h => simp [p, Graph.ofStore] at h
    | mapping h => simp [p, Graph.ofStore] at h
  exact ⟨q, hq, safe_of_compile (Condition.reachable_oneValueStore _) hindex hraises hq⟩

end Planner

end HyperQuery
