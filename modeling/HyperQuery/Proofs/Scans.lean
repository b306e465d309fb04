import HyperQuery.Proofs.Plan.Scans
import HyperQuery.Proofs.Query
import HyperQuery.Proofs.Store.Changes

/-!
# How many scans a query takes

A compiled query that is opened and drained reads each set in its plan at most once, and expands each atom that one of its
walks reaches at most once, whatever the number of candidates that it tests (`Planner.scans_of_compile`). Compiling takes no
scans.
-/

namespace HyperQuery

namespace CompiledQuery

variable {q : CompiledQuery} {g : Graph}

/-- The results of a query that is opened and read forward to its end. -/
def drained (q : CompiledQuery) (g : Graph) : Metered (List AtomId) := do
  (Cursor.run g (fun n => n.drain) (← q.cursor g)).1

/-- Opening and draining a query with a frugal plan takes no more scans than there are sets to read and atoms to expand. -/
theorem scans_drained_le (hstore : g.store.Consistent) (hfrugal : q.plan.Frugal false) :
    (q.drained g).meters.scans ≤ q.plan.scanBound g.store := by
  have haffords : ((q.plan.blueprint q.config.materializeLimit).access g).Affords false (q.plan.scanBound g.store) :=
    Plan.affords hstore q.plan hfrugal
  obtain ⟨I, budget, hstart, hcursor⟩ := haffords
  -- the states of cursors are of different types, so what is left for draining is counted as what draining takes
  let draining (cur : Cursor) : Metered (List AtomId) := (Cursor.run g (fun n => n.drain) cur).1
  have hopened : (q.cursor g).Affords (fun _ => True) (fun cur => (draining cur).meters.scans)
      (q.plan.scanBound g.store) := by
    have hcounted : (Metered.spend .oneOpen).Affords (fun _ => True) (fun _ => q.plan.scanBound g.store)
        (q.plan.scanBound g.store) := Metered.affords_of_scans_eq_zero rfl fun _ _ => ⟨trivial, Nat.le_refl _⟩
    exact hcounted.bind fun _ _ => hstart.bind fun s hs => .pure trivial (hcursor.scans_drain hs)
  have hdrained : (q.drained g).Affords (fun _ => True) (fun _ => 0) (q.plan.scanBound g.store) :=
    hopened.bind fun cur _ => ⟨Nat.le_refl _, fun _ _ => ⟨trivial, Nat.le_refl _⟩⟩
  exact hdrained.1

end CompiledQuery

namespace Planner

private theorem scans_compile (p : Planner) (c : Condition) : (p.compile c).meters.scans = 0 :=
  (Metered.scans_bind fun _ => Metered.scans_bind fun _ => Metered.scans_bind fun _ => rfl).trans rfl

/-- Compiling takes no scans. Opening the compiled query and draining it takes at most one scan for each set that its plan
reads, the plans that steps probe or collect included, and one for each atom that one of its walks expands; if the plan is
known to be empty, none. -/
theorem scans_of_compile (p : Planner) (c : Condition) (g : Graph) (hstore : g.store.Reachable) :
    (p.compile c).meters.scans = 0 ∧ ∀ q, (p.compile c).answer = .ok q →
      (q.drained g).meters.scans ≤ q.plan.scanBound g.store ∧
      (q.plan.isEmpty = true → (q.drained g).meters.scans = 0) := by
  refine ⟨scans_compile p c, fun q hcompile => ?_⟩
  obtain ⟨e, hprepare, -, hplan, -⟩ := stages_of_compile hcompile
  have hbound := CompiledQuery.scans_drained_le hstore.consistent.1 (frugal_of_prepare hprepare hplan)
  refine ⟨hbound, fun hempty => ?_⟩
  have hnone : q.plan = .empty := by
    cases hq : q.plan with
    | empty => rfl
    | _ => simp [hq, Plan.isEmpty] at hempty
  rw [hnone] at hbound
  exact Nat.le_zero.mp hbound

/-- Four atoms are tested for being below one of them: one scan reads them, and two expand the walk. -/
theorem scans_of_compile_walk :
    let s := Store.afterChanges [.defineType "Animal" .none [], .defineType "Cat" .none [], .declareSubtype 3 4]
    let p : Planner := ⟨.permissive, .ofStore s⟩
    ∃ q, (p.compile (.and [.ofType (.handle 1), .subsumed 3])).answer = .ok q ∧
      (q.drained p.graph).meters.scans ≤ q.plan.scanBound s ∧ q.plan.scanBound s = 3 ∧
      (q.drained p.graph).meters.scans = 3 ∧ (q.drained p.graph).meters.evals = 4 := by
  intro s p
  let c : Condition := .and [.ofType (.handle 1), .subsumed 3]
  have hmeasured : (p.compile c).answer.map (fun q =>
      (q.plan.scanBound s, (q.drained p.graph).meters.scans, (q.drained p.graph).meters.evals)) = .ok (3, 3, 4) := by
    decide +kernel
  obtain ⟨q, hq, hmeters⟩ := exists_of_map_eq_ok hmeasured
  obtain ⟨hbound, hscans, hevals⟩ : q.plan.scanBound s = 3 ∧ (q.drained p.graph).meters.scans = 3 ∧
      (q.drained p.graph).meters.evals = 4 := by simpa using hmeters
  exact ⟨q, hq, ((scans_of_compile p c p.graph (Store.reachable_afterChanges _)).2 q hq).1, hbound, hscans, hevals⟩

end Planner

end HyperQuery
