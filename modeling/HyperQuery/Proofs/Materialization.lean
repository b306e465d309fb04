import HyperQuery.Proofs.Cursor.Gathering
import HyperQuery.Proofs.Mapping
import HyperQuery.Proofs.Plan.Steps

/-!
# The limit on collected sets

A conjunct that can neither be sought nor tested is collected as a set for the first candidate, and the configuration may
limit its size. What is compared with the limit is how many handles the plan of the conjunct finds, and a mapping finds one
as often as it comes as an image. So a set may be refused although it is small enough (`Planner.materialized_of_compile`,
`Planner.exists_refused_set`); with a plan other than a mapping this cannot happen, since it finds no handle twice.
-/

namespace HyperQuery

variable {g : Graph}

/-- What is found by a cursor that repeats no handle has no repetitions. -/
theorem Blueprint.Distinct.nodup_of_finds {b : Blueprint} {s : b.State} {ids : List AtomId} (h : b.Distinct g false)
    (hs : (b.access g).start.answer = .ok s) (hfinds : (b.access g).toNavigation.Finds s ids) : ids.Nodup := by
  obtain ⟨I, hends, hI⟩ := b.exists_ends (g := g)
  obtain ⟨t, htrace⟩ := hends.exists_traces (hI s hs) hfinds.replies_eq
  have hnodup := h s hs _ t htrace
  simpa using hnodup

namespace Planner

variable {p : Planner} {c : Condition} {q : CompiledQuery} {plan : Plan} {n : Nat} {ids : List AtomId}

/-- The plans of leaves find no more handles than the capacity of their cursors is, and none twice unless they map. -/
private theorem limited_and_distinct_of_leaf (hstore : p.graph.store.Consistent) {depth : Nat}
    (hleaf : c.isCombinator = false) (h : p.planNested depth c = .ok plan) :
    plan.Limited p.graph ∧ (plan.isMap = false → plan.Distinct p.graph false) := by
  have hnormal : Condition.NormalFormOf (Condition.Names fun _ _ _ => True) c :=
    (Condition.armOf_leaf hleaf fun _ _ _ _ _ _ => trivial).normalFormOf
  refine ⟨limited_planNested hstore depth hnormal h, fun hmapped => ?_⟩
  obtain ⟨f, hf⟩ : ∃ f, p.planNested depth c = p.planWith f c := by
    cases depth with
    | zero => exact ⟨_, rfl⟩
    | succ depth => exact ⟨_, rfl⟩
  rw [hf] at h
  rcases Condition.map_cases c with ⟨operand, mapping, rfl⟩ | hmap
  · rw [planWith] at h
    obtain ⟨base, -, h⟩ := bind_eq_ok_iff.mp h
    cases h
    simp [Plan.isMap] at hmapped
  · rw [planWith_of_leaf hleaf hmap] at h
    exact distinct_planLeaf hstore (by simp) h

/-- The limit on collected sets counts repetitions. If the plan of a materialized step is drained without error, these are
all the handles that it finds, and every candidate that reaches the step is refused with them if there are more of them than
the limit, repetitions included; otherwise it is looked up among them. So candidates are refused exactly if there are too
many different handles, unless the different handles alone would not have been too many. A plan other than a mapping repeats
none. -/
theorem materialized_of_compile (hstore : p.graph.store.Reachable) (hq : (p.compile c).answer = .ok q)
    (hlimit : q.config.materializeLimit = some n) (hstep : .materialized plan ∈ q.plan.steps)
    {s : (plan.blueprint q.config.materializeLimit).State}
    (hs : ((plan.blueprint q.config.materializeLimit).access p.graph).start.answer = .ok s)
    (hdrain : (((plan.blueprint q.config.materializeLimit).access p.graph).toNavigation.drain s).1.answer = .ok ids)
    (candidates : List AtomId) :
    let check := (FilterStep.materialized plan).check q.config.materializeLimit
    let verdicts := (check.tester p.graph).verdicts candidates check.initial
    ((plan.blueprint q.config.materializeLimit).access p.graph).toNavigation.Finds s ids ∧
      (verdicts = candidates.map fun x =>
        if n < ids.length then .error (.oversizedSet ids.length n) else .ok (ids.contains x)) ∧
      (∀ verdict ∈ verdicts, ((∃ size, verdict = .error (.oversizedSet size n)) ↔ n < ids.eraseDups.length) ↔
        ¬ (ids.eraseDups.length ≤ n ∧ n < ids.length)) ∧
      (plan.isMap = false → ids.Nodup) := by
  intro check verdicts
  obtain ⟨_, hprepare, -, hplan, -⟩ := stages_of_compile hq
  have hall : q.plan.AllSteps fun step => ∀ plan, step = .materialized plan →
      plan.Limited p.graph ∧ (plan.isMap = false → plan.Distinct p.graph false) := by
    refine allSteps_of_prepare (fun _ _ _ => by simp) (fun depth d plan _ hleaf h => ⟨by simp, ?_⟩) hprepare hplan
    rintro _ ⟨⟩
    exact limited_and_distinct_of_leaf hstore.consistent.1 hleaf h
  obtain ⟨hlimited, hdistinct⟩ := hall _ hstep plan rfl
  obtain ⟨hfinds, -⟩ := (hlimited _).finds_of_drain hs hdrain
  have hverdicts : verdicts = candidates.map fun x =>
      if n < ids.length then .error (.oversizedSet ids.length n) else .ok (ids.contains x) := by
    have hgather := Tester.verdicts_gather (n := n) hs hdrain candidates
    rwa [← hlimit] at hgather
  refine ⟨hfinds, hverdicts, fun verdict hverdict => ?_, fun hmap => (hdistinct hmap _).nodup_of_finds hs hfinds⟩
  have hle : ids.eraseDups.length ≤ ids.length :=
    (AtomSet.nodup_eraseDups ids).length_le_of_subset fun x hx => List.mem_eraseDups.mp hx
  have hfails : (∃ size, verdict = .error (.oversizedSet size n)) ↔ n < ids.length := by
    rw [hverdicts] at hverdict
    obtain ⟨x, -, rfl⟩ := List.mem_map.mp hverdict
    by_cases h : n < ids.length <;> simp [h]
  rw [hfails]
  omega

/-- A materialized step that evaluation comes upon. -/
private theorem exists_materialized (ids : List AtomId) (h : (match (p.compile c).answer with
      | .ok q => q.plan.steps.any fun
        | .materialized plan =>
          let cursor := (plan.blueprint q.config.materializeLimit).access p.graph
          decide ((do (cursor.drain (← cursor.start)).1 : Metered (List AtomId)).answer = .ok ids)
        | _ => false
      | .error _ => false) = true) :
    ∃ q plan, ∃ s : (plan.blueprint q.config.materializeLimit).State, (p.compile c).answer = .ok q ∧
      .materialized plan ∈ q.plan.steps ∧
      ((plan.blueprint q.config.materializeLimit).access p.graph).start.answer = .ok s ∧
      (((plan.blueprint q.config.materializeLimit).access p.graph).toNavigation.drain s).1.answer = .ok ids := by
  rcases hq : (p.compile c).answer with e | q
  · simp [hq] at h
  · rw [hq] at h
    obtain ⟨step, hstep, h⟩ := List.any_eq_true.mp h
    cases step with
    | materialized plan =>
      obtain ⟨s, hs, hdrain⟩ := Metered.answer_bind_eq_ok_iff.mp (of_decide_eq_true h)
      exact ⟨q, plan, s, rfl, hstep, hs, hdrain⟩
    | predicate condition cost => simp at h
    | membership plan cost => simp at h

/-- The type of types is the type of both atoms of a new graph, so it is found twice, which a limit of two allows. -/
theorem materialized_of_compile_types :
    let p : Planner := ⟨{ PlannerConfig.permissive with materializeLimit := some 2 }, .ofStore .initial⟩
    let c : Condition := .and [.ofType (.handle 1), .map .any .typeOf]
    ∃ q plan, ∃ s : (plan.blueprint q.config.materializeLimit).State, p.graph.store.Reachable ∧
      (p.compile c).answer = .ok q ∧ q.config.materializeLimit = some 2 ∧ .materialized plan ∈ q.plan.steps ∧
      ((plan.blueprint q.config.materializeLimit).access p.graph).start.answer = .ok s ∧
      (((plan.blueprint q.config.materializeLimit).access p.graph).toNavigation.drain s).1.answer = .ok [1, 1] ∧
      let check := (FilterStep.materialized plan).check q.config.materializeLimit
      (check.tester p.graph).verdicts [1, 2] check.initial = [.ok true, .ok false] := by
  intro p c
  obtain ⟨q, plan, s, hq, hstep, hs, hdrain⟩ := exists_materialized (p := p) (c := c) [1, 1] (by decide +kernel)
  have hlimit : q.config.materializeLimit = some 2 := by
    obtain ⟨-, -, -, -, hconfig⟩ := stages_of_compile hq
    rw [hconfig]
  refine ⟨q, plan, s, .initial, hq, hlimit, hstep, hs, hdrain, ?_⟩
  exact (materialized_of_compile .initial hq hlimit hstep hs hdrain [1, 2]).2.1

/-- With a limit of one the same set is refused as one of two atoms, though it has only one. -/
theorem exists_refused_set :
    let p : Planner := ⟨{ PlannerConfig.permissive with materializeLimit := some 1 }, .ofStore .initial⟩
    let c : Condition := .and [.ofType (.handle 1), .map .any .typeOf]
    ∃ q plan, ∃ s : (plan.blueprint q.config.materializeLimit).State,
      (p.compile c).answer = .ok q ∧ q.config.materializeLimit = some 1 ∧ .materialized plan ∈ q.plan.steps ∧
      ((plan.blueprint q.config.materializeLimit).access p.graph).start.answer = .ok s ∧
      (((plan.blueprint q.config.materializeLimit).access p.graph).toNavigation.drain s).1.answer = .ok [1, 1] ∧
      ¬ 1 < ([1, 1] : List AtomId).eraseDups.length ∧
      let check := (FilterStep.materialized plan).check q.config.materializeLimit
      (check.tester p.graph).verdicts [1] check.initial = [.error (.oversizedSet 2 1)] := by
  intro p c
  obtain ⟨q, plan, s, hq, hstep, hs, hdrain⟩ := exists_materialized (p := p) (c := c) [1, 1] (by decide +kernel)
  have hlimit : q.config.materializeLimit = some 1 := by
    obtain ⟨-, -, -, -, hconfig⟩ := stages_of_compile hq
    rw [hconfig]
  have hverdicts := Tester.verdicts_gather (n := 1) hs hdrain [1]
  rw [← hlimit] at hverdicts
  exact ⟨q, plan, s, hq, hlimit, hstep, hs, hdrain, by decide, hverdicts⟩

end Planner

end HyperQuery
