import HyperQuery.Proofs.Condition.Pointwise

/-!
# What plans of leaves look like

The plan of a condition that is not made of others reads one set, walks, reads the atoms of some types, or tests the condition
itself on what is read from a set or from the links that point at all of some atoms (`Condition.PlannedAs`). Which of these
planning chooses is decided by `Planner.plannedAs_of_planLeaf` once, for all that is proved of such plans.
-/

namespace HyperQuery

namespace Plan

/-- Whether the plan reads one set, or nothing. -/
def isSet : Plan → Bool
  | .empty | .targetSet _ | .fullScan | .typeScan _ | .indexLookup _ _ _ | .incidence _ => true
  | _ => false

/-- The links that point at all of the atoms. -/
def incidences (id : AtomId) (ids : List AtomId) : Plan :=
  ids.foldl (fun plan id => .zigZag plan (.incidence id)) (.incidence id)

variable {plan : Plan} {motive : Plan → Prop}

theorem exists_reading_of_isSet (h : plan.isSet = true) :
    ∃ r : Reading, (∀ snap, r ≠ .given snap) ∧ ∀ limit, plan.blueprint limit = .reading r := by
  cases plan with
  | empty | targetSet | fullScan | typeScan | indexLookup | incidence => exact ⟨_, by simp, fun _ => rfl⟩
  | _ => simp [isSet] at h

theorem incidences_induction (hincidence : ∀ id, motive (.incidence id))
    (hzigZag : ∀ plan id, motive plan → motive (.zigZag plan (.incidence id))) (id : AtomId) (ids : List AtomId) :
    motive (incidences id ids) :=
  List.foldlRecOn (motive := motive) ids _ (hincidence id) fun plan hplan id _ => hzigZag plan id hplan

end Plan

/-- The ways to plan a condition that is not made of others. -/
inductive Condition.PlannedAs (c : Condition) : Plan → Prop
  /-- One set is read. -/
  | set {plan : Plan} (hset : plan.isSet = true) : c.PlannedAs plan
  | walk {w : Walk} {id : AtomId} (hwalk : c.walkStart? = some id) : c.PlannedAs (.traversal w)
  | types (ids : List AtomId) : c.PlannedAs (.unionAll (ids.map .typeScan))
  /-- One set is read, and each of its atoms is tested. -/
  | test {base : Plan} {cost : Double} (hbase : base.isSet = true) (hpoint : c.isPointwise = true) :
    c.PlannedAs (.filtered base [.predicate c cost])
  /-- Links are found by what they point at, and each of them is tested. -/
  | links {id : AtomId} {ids : List AtomId} {cost : Double} (hpoint : c.isPointwise = true) :
    c.PlannedAs (.filtered (.incidences id ids) [.predicate c cost])

namespace Planner

open Condition

variable {p : Planner} {c : Condition} {plan : Plan} {cost : Double}

theorem eq_of_fullScan (h : p.fullScan c = .ok plan) : plan = .fullScan := by
  unfold fullScan at h
  split at h
  · cases h
    rfl
  · simp at h

private theorem plannedAs_of_filteredFullScan (hpoint : c.isPointwise = true) (h : p.filteredFullScan c cost = .ok plan) :
    c.PlannedAs plan := by
  obtain ⟨base, hbase, h⟩ := bind_eq_ok_iff.mp h
  cases h
  exact .test (by rw [eq_of_fullScan hbase]; rfl) hpoint

private theorem plannedAs_of_typedValue {ty : AtomId} {literal : Value} {op : Comparison} (hpoint : c.isPointwise = true)
    (h : p.typedValue c ty literal op cost = .ok plan) : c.PlannedAs plan := by
  obtain ⟨index?, -, h⟩ := bind_eq_ok_iff.mp h
  cases index? with
  | some index =>
    cases h
    exact .set rfl
  | none =>
    cases h
    exact .test rfl hpoint

private theorem plannedAs_of_linkPattern {pattern : List Target} (hpoint : c.isPointwise = true)
    (h : p.linkPattern c pattern = .ok plan) : c.PlannedAs plan := by
  unfold linkPattern at h
  split at h
  · cases h
    exact .set rfl
  · obtain ⟨e, -, h⟩ := bind_eq_ok_iff.mp h
    split at h
    · exact plannedAs_of_filteredFullScan hpoint h
    · cases h
      exact .links hpoint

/-- What the plan of a condition that is not made of others looks like. -/
theorem plannedAs_of_planLeaf (h : p.planLeaf c = .ok plan) : c.PlannedAs plan := by
  cases c with
  | any =>
    rw [eq_of_fullScan h]
    exact .set rfl
  | nothing | incident id | targetOf id =>
    cases h
    exact .set rfl
  | walk w =>
    cases h
    exact .walk rfl
  | subsumes id | subsumed id =>
    cases h
    exact .walk rfl
  | ofType ty =>
    obtain ⟨id, -, h⟩ := bind_eq_ok_iff.mp h
    cases h
    exact .set rfl
  | ofTypePlus ty =>
    obtain ⟨id, -, h⟩ := bind_eq_ok_iff.mp h
    obtain ⟨below, -, h⟩ := bind_eq_ok_iff.mp h
    cases h
    exact .types _
  | value literal op =>
    obtain ⟨e, -, h⟩ := bind_eq_ok_iff.mp h
    split at h
    · exact plannedAs_of_typedValue rfl h
    · exact plannedAs_of_filteredFullScan rfl h
  | typedValue ty literal op =>
    obtain ⟨e, -, h⟩ := bind_eq_ok_iff.mp h
    obtain ⟨id, -, h⟩ := bind_eq_ok_iff.mp h
    exact plannedAs_of_typedValue rfl h
  | indexedPart ty path index literal op =>
    simp only [planLeaf] at h
    split at h
    · cases h
      exact .set rfl
    · obtain ⟨e, -, h⟩ := bind_eq_ok_iff.mp h
      cases h
      exact .test rfl rfl
  | link pattern | orderedLink pattern => exact plannedAs_of_linkPattern rfl h
  | _ =>
    obtain ⟨e, he, h⟩ := bind_eq_ok_iff.mp h
    split at h
    · rename_i htestable
      exact plannedAs_of_filteredFullScan (isPointwise_of_isPredicate he htestable) h
    · simp at h

end Planner

end HyperQuery
