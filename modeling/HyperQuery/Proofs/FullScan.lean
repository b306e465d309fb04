import HyperQuery.Proofs.Plan.FullScan
import HyperQuery.Proofs.Query
import HyperQuery.Proofs.Store.Changes

/-!
# Compiling without full scans

A configuration may forbid plans that read every atom. The same condition is then compiled into the same query as without
the ban, unless the plan has a full scan at some depth; in this case, and in no other, it is refused for that reason
(`Planner.compile_without_full_scan`).
-/

namespace HyperQuery

namespace Planner

variable {config : PlannerConfig} {g : Graph} {c : Condition} {q : CompiledQuery}

/-- The ban on full scans is exact. A condition that compiles with full scans allowed is refused without them if and only
if its plan has one, at any depth. Otherwise it compiles to the same plan, with the same hash, for the same prepared
condition. -/
theorem compile_without_full_scan (h : (compile ⟨{ config with allowFullScan := true }, g⟩ c).answer = .ok q) :
    let strict : PlannerConfig := { config with allowFullScan := false }
    ((∃ text, (compile ⟨strict, g⟩ c).answer = .error (.plan (.fullScanDisabled text))) ↔ q.plan.hasFullScan = true) ∧
      (q.plan.hasFullScan = false → (compile ⟨strict, g⟩ c).answer = .ok { q with config := strict }) := by
  intro strict
  obtain ⟨hprepare, he, hplan, hhash, -⟩ := answer_compile_eq_ok_iff.mp h
  obtain ⟨hrefused, hsame⟩ := refuses_plan (p := ⟨config, g⟩) _ hplan
  have hok : q.plan.hasFullScan = false → (compile ⟨strict, g⟩ c).answer = .ok { q with config := strict } := fun hscan =>
    answer_compile_eq_ok_iff.mpr ⟨hprepare, he, hsame hscan, hhash, rfl⟩
  refine ⟨⟨fun ⟨text, herror⟩ => ?_, fun hscan => ?_⟩, hok⟩
  · by_contra hscan
    rw [hok (Bool.eq_false_iff.mpr hscan)] at herror
    cases herror
  · obtain ⟨text, herror⟩ := hrefused hscan
    refine ⟨text, ?_⟩
    have hd : (Metered.ofExcept (prepare ⟨strict, g⟩ c)).answer = .ok q.condition := hprepare
    rw [compile]
    exact (Metered.answer_bind_of_ok hd).trans ((Metered.answer_bind_of_ok he).trans (Metered.answer_bind_of_error herror))

/-- Numbers that are among the types of all atoms: the set that is collected to test them is made by a full scan. -/
theorem compile_without_full_scan_collected :
    let config : PlannerConfig := .strict
    let g : Graph := .ofStore (Store.afterChanges [.defineType "Number" .none [], .addAtom 3 (.int 5)])
    let c : Condition := .and [.ofType (.handle 3), .map .any .typeOf]
    let strict : PlannerConfig := { config with allowFullScan := false }
    ∃ q, (compile ⟨{ config with allowFullScan := true }, g⟩ c).answer = .ok q ∧ q.plan.hasFullScan = true ∧
      ((∃ text, (compile ⟨strict, g⟩ c).answer = .error (.plan (.fullScanDisabled text))) ↔ q.plan.hasFullScan = true) ∧
      (q.plan.hasFullScan = false → (compile ⟨strict, g⟩ c).answer = .ok { q with config := strict }) := by
  intro config g c strict
  have hscan : (compile ⟨{ config with allowFullScan := true }, g⟩ c).answer.map (fun q => q.plan.hasFullScan) =
      .ok true := by decide +kernel
  rcases hq : (compile ⟨{ config with allowFullScan := true }, g⟩ c).answer with e | q
  · rw [hq] at hscan
    cases hscan
  · rw [hq] at hscan
    exact ⟨q, rfl, Except.ok.inj hscan, compile_without_full_scan hq⟩

end Planner

end HyperQuery
