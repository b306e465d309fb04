import HyperQuery.Proofs.Estimate
import HyperQuery.Proofs.Plan.Conjunction

/-!
# Plans of normal forms

A condition in disjunctive normal form is a leaf, a conjunction of leaves, or a disjunction of such, and its plan finds
exactly the atoms that match it (`finds_planWith`). Mappings stay out, so how their operands are planned plays no part.
-/

namespace HyperQuery

namespace Condition

variable {c : Condition}

theorem isArm_cases (h : isArm c = true) :
    c.isCombinator = false ∨ ∃ cs, c = .and cs ∧ ∀ l ∈ cs, l.isCombinator = false := by
  cases c with
  | and cs =>
    refine .inr ⟨cs, rfl, fun l hl => ?_⟩
    have hl := List.all_eq_true.mp h l hl
    simpa using hl
  | or cs => simp [isArm, isCombinator] at h
  | _ => exact .inl rfl

end Condition

namespace Planner

open Condition

variable {p : Planner} {f : Condition → Except QueryError Plan} {c : Condition} {cs : List Condition} {e : Estimate}
  {plan : Plan}

theorem planWith_of_leaf (hleaf : c.isCombinator = false) (hmap : ∀ operand mapping, c ≠ .map operand mapping) :
    p.planWith f c = p.planLeaf c := by
  cases c with
  | and cs => simp [isCombinator] at hleaf
  | or cs => simp [isCombinator] at hleaf
  | map operand mapping => exact absurd rfl (hmap operand mapping)
  | _ => rw [planWith] <;> simp

theorem plansWith_eq_map : p.plansWith f cs = cs.map (p.planWith f) := by
  induction cs with
  | nil => rfl
  | cons c cs ih => rw [plansWith, ih, List.map_cons]

/-! ### Arms -/

/-- Conditions with their estimates and plans make conjuncts. -/
theorem forall_mem_conjuncts {S : Conjunct → Prop} {es : List Estimate} (hes : estimates p.graph cs = .ok es)
    (h : ∀ c ∈ cs, ∀ e, c.estimate p.graph = .ok e → S ⟨c, e, p.planWith f c⟩) :
    let conjuncts : List Conjunct := (cs.zip (es.zip (p.plansWith f cs))).map fun (c, e, plan) => ⟨c, e, plan⟩
    (∀ x ∈ conjuncts, S x) ∧ conjuncts.map Conjunct.condition = cs := by
  induction cs generalizing es with
  | nil => simp
  | cons c cs ih =>
    obtain ⟨e, he, hes⟩ := bind_eq_ok_iff.mp hes
    obtain ⟨rest, hrest, hes⟩ := bind_eq_ok_iff.mp hes
    cases hes
    obtain ⟨hS, hconditions⟩ := ih hrest fun d hd => h d (by simp [hd])
    simp only [plansWith, List.zip_cons_cons, List.map_cons, List.forall_mem_cons, hconditions]
    exact ⟨⟨h c (by simp) e he, hS⟩, trivial⟩

private theorem finds_planWith_arm (hstore : p.graph.store.Consistent) (harm : c.isArm = true)
    (hplannable : ∀ l ∈ c.leaves, l.Plannable p.graph) (he : c.estimate p.graph = .ok e)
    (h : p.planWith f c = .ok plan) : ∃ o k, plan.Finds p.graph o k (c.Matches p.graph) := by
  rcases isArm_cases harm with hleaf | ⟨cs, rfl, hleaf⟩
  · have hc := hplannable c (by rw [leaves_of_not_isCombinator hleaf]; simp)
    rw [planWith_of_leaf hleaf hc.notMap] at h
    obtain ⟨o, k, hfinds, -⟩ := serves_leaf hstore hc hleaf he h
    exact ⟨o, k, hfinds⟩
  · rw [planWith] at h
    obtain ⟨es, hes, h⟩ := bind_eq_ok_iff.mp h
    have hcs : ∀ l ∈ cs, l.Plannable p.graph := by rwa [leaves_and hleaf] at hplannable
    have hconjunct : ∀ c ∈ cs, ∀ e, c.estimate p.graph = .ok e → Conjunct.Sound p.graph ⟨c, e, p.planWith f c⟩ := by
      refine fun c hc e he => ⟨(hcs c hc).decided, fun plan hplan => ?_⟩
      rw [planWith_of_leaf (hleaf c hc) (hcs c hc).notMap] at hplan
      exact serves_leaf hstore (hcs c hc) (hleaf c hc) he hplan
    obtain ⟨hsound, hconditions⟩ := forall_mem_conjuncts hes hconjunct
    obtain ⟨o, k, hfinds⟩ := finds_planConjunction hstore hsound h
    rw [hconditions] at hfinds
    exact ⟨o, k, hfinds.congr fun id => exists_congr fun a => and_congr_right fun _ => holds_and.symm⟩

/-! ### Normal forms -/

theorem forall₂_plansWith {S : Plan → Condition → Prop} {plans : List Plan}
    (hcs : ∀ c ∈ cs, ∀ plan, p.planWith f c = .ok plan → S plan c) (h : (p.plansWith f cs).mapM id = .ok plans) :
    List.Forall₂ S plans cs := by
  induction cs generalizing plans with
  | nil =>
    cases h
    exact .nil
  | cons c cs ih =>
    rw [plansWith, List.mapM_cons] at h
    obtain ⟨plan, hplan, h⟩ := bind_eq_ok_iff.mp h
    obtain ⟨rest, hrest, h⟩ := bind_eq_ok_iff.mp h
    cases h
    exact .cons (hcs c (by simp) plan hplan) (ih (fun d hd => hcs d (by simp [hd])) hrest)

private theorem findEach_plansWith {plans : List Plan} (hstore : p.graph.store.Consistent)
    (harms : ∀ c ∈ cs, c.isArm = true) (hplannable : ∀ c ∈ cs, ∀ l ∈ c.leaves, l.Plannable p.graph)
    (he : ∀ c ∈ cs, ∃ e, c.estimate p.graph = .ok e) (h : (p.plansWith f cs).mapM id = .ok plans) :
    Plan.FindEach p.graph (fun _ _ => True) plans (cs.map (Matches p.graph)) := by
  rw [Plan.FindEach, List.forall₂_map_right_iff]
  refine forall₂_plansWith (fun c hc plan hplan => ?_) h
  obtain ⟨e, hce⟩ := he c hc
  obtain ⟨o, k, hfinds⟩ := finds_planWith_arm hstore (harms c hc) (hplannable c hc) hce hplan
  exact ⟨o, k, trivial, hfinds⟩

/-- The plan of a condition in disjunctive normal form finds the atoms that match it. -/
theorem finds_planWith (hstore : p.graph.store.Consistent) (hnormal : c.isNormalForm = true)
    (hplannable : ∀ l ∈ c.leaves, l.Plannable p.graph) (he : c.estimate p.graph = .ok e)
    (h : p.planWith f c = .ok plan) : ∃ o k, plan.Finds p.graph o k (c.Matches p.graph) := by
  cases c with
  | or cs =>
    rw [planWith] at h
    obtain ⟨plans, hplans, h⟩ := bind_eq_ok_iff.mp h
    obtain ⟨es, hes, he⟩ := bind_eq_ok_iff.mp he
    cases h
    have hleaves : ∀ c ∈ cs, ∀ l ∈ c.leaves, l.Plannable p.graph := fun c hc l hl =>
      hplannable l (mem_leavesOf.mpr ⟨c, hc, hl⟩)
    have hestimates : ∀ c ∈ cs, ∃ e, c.estimate p.graph = .ok e := by
      intro c hc
      obtain ⟨e, -, he⟩ := exists_estimate_of_mem hes hc
      exact ⟨e, he⟩
    have heach := findEach_plansWith hstore (List.all_eq_true.mp hnormal) hleaves hestimates hplans
    obtain ⟨o, k, -, hfinds⟩ := heach.unionAll (fun _ _ _ _ _ _ => trivial) trivial
    refine ⟨o, k, hfinds.congr fun id => ?_⟩
    constructor
    · rintro ⟨Q, hQ, hid⟩
      obtain ⟨c, hc, rfl⟩ := List.mem_map.mp hQ
      obtain ⟨a, ha, hh⟩ := hid
      refine ⟨a, ha, (holds_or fun d hd => ?_).mpr ⟨c, hc, hh⟩⟩
      exact decided_of_leaves fun l hl => (hleaves d hd l hl).decided id a ha
    · rintro ⟨a, ha, hh⟩
      obtain ⟨c, hc, hh⟩ := exists_of_holds_or hh
      exact ⟨c.Matches p.graph, List.mem_map.mpr ⟨c, hc, rfl⟩, a, ha, hh⟩
  | _ => exact finds_planWith_arm hstore hnormal hplannable he h

/-- The operands of mappings are planned in some way. -/
theorem exists_plan_eq (p : Planner) (c : Condition) : ∃ f, p.plan c = p.planWith f c := by
  unfold Planner.plan
  cases c.mapDepth with
  | zero => exact ⟨_, rfl⟩
  | succ depth => exact ⟨_, rfl⟩

/-- The same for the plan with all its mappings. -/
theorem finds_plan (hstore : p.graph.store.Consistent) (hnormal : c.isNormalForm = true)
    (hplannable : ∀ l ∈ c.leaves, l.Plannable p.graph) (he : c.estimate p.graph = .ok e) (h : p.plan c = .ok plan) :
    ∃ o k, plan.Finds p.graph o k (c.Matches p.graph) := by
  obtain ⟨f, hf⟩ := exists_plan_eq p c
  exact finds_planWith hstore hnormal hplannable he (hf.symm.trans h)

end Planner

end HyperQuery
