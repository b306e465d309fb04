import HyperQuery.Proofs.Cursor.Capacity
import HyperQuery.Proofs.Plan.Nested
import HyperQuery.Proofs.Plan.Repeats

/-!
# How much plans find

The capacity of a cursor is what ends the loops over it, so a cursor that has more to offer than its capacity allows for
would be cut short. No plan is (`Planner.limited_plan`): opened and moved forward, its cursor finds no more handles than
its capacity was when it was opened. For what repeats no handle, this is because there are no other handles to find
(`Blueprint.limited_of_distinct`); mappings and unions find no more than what they are made of.

All this is independent of the indexes that the condition names, and of the functions that users supply.
-/

namespace HyperQuery

variable {σ : Type} {g : Graph}

/-- All handles of a trace are confined. -/
theorem Navigation.Confined.mem_of_traces {n : Navigation σ} {I : σ → Prop} {P : AtomId → Prop} {room : Nat}
    {seeks : Bool} {s t : σ} {xs : List AtomId} (hn : n.Confined I P room) (hs : I s)
    (h : n.forward.Traces seeks s xs t) : I t ∧ ∀ x ∈ xs, P x := by
  induction h with
  | start => exact ⟨hs, by simp⟩
  | @advance xs x t u _ hx ih =>
    obtain ⟨ht, hxs⟩ := ih
    have hfound : I u ∧ FoundIn P (some x) := by
      cases hx with
      | pull hnext => exact ((hn.next t ht).gives hnext).imp_right fun hfound => hfound _ rfl
      | seek _ _ _ hseek => exact ((hn.seekFrom _ t ht).gives hseek).imp_right fun hfound => hfound _ rfl
    refine ⟨hfound.1, fun y hy => ?_⟩
    rcases List.mem_append.mp hy with hy | hy
    · exact hxs y hy
    · exact List.mem_singleton.mp hy ▸ foundIn_some.mp hfound.2

/-! ### Blueprints -/

namespace Blueprint

/-- Opened on the graph and moved forward, the cursor finds no more handles than its capacity is. -/
def Limited (g : Graph) (b : Blueprint) : Prop :=
  ∀ s, (b.access g).start.answer = .ok s → ∀ xs t, (b.access g).toNavigation.forward.Traces false s xs t →
    xs.length ≤ (b.access g).capacity s

variable {b left right base : Blueprint} {checks : List Check} {mapping : Mapping}

theorem limited_of_distinct (hstore : g.store.Consistent) (h : b.Distinct g false) : b.Limited g := by
  intro s hs xs t htrace
  obtain ⟨I, ids, hI, hconfined, hlength⟩ := exists_confined hstore b hs
  exact Nat.le_trans ((h s hs xs t htrace).length_le_of_subset (hconfined.mem_of_traces hI htrace).2) hlength

theorem Limited.filter (hbase : base.Limited g) : (Blueprint.filter base checks).Limited g := by
  intro u hu xs t htrace
  obtain ⟨s, hs, hu⟩ := Metered.answer_bind_eq_ok_iff.mp hu
  cases hu
  obtain ⟨ys, t', hfilter, -, hxs, -⟩ := (Buffered.follows _ _ _).exists_traces .start htrace
  obtain ⟨drawn, u', hdrawn, -, hys, -⟩ := (Filter.follows _ _ _ s).exists_traces rfl hfilter
  have hlength : xs.length ≤ drawn.length := (hxs.trans hys).length_le
  exact Nat.le_trans (Nat.le_trans hlength (hbase s hs drawn u' hdrawn)) (Nat.le_add_left _ _)

theorem Limited.map (hbase : base.Limited g) : (Blueprint.map base mapping).Limited g := by
  intro u hu xs t htrace
  obtain ⟨s, hs, hu⟩ := Metered.answer_bind_eq_ok_iff.mp hu
  cases hu
  obtain ⟨ys, t', hmap, -, hxs, -⟩ := (Buffered.follows _ _ _).exists_traces .start htrace
  obtain ⟨drawn, hdrawn, hys⟩ := MapEach.exists_traces (fun x y hy => Mapping.image_eq_some_iff.mpr hy) hmap
  have hlength : xs.length ≤ drawn.length := Nat.le_trans (hxs.trans hys).length_le (List.length_filterMap_le _ _)
  exact Nat.le_trans (Nat.le_trans hlength (hbase s hs drawn t' hdrawn)) (Nat.le_add_left _ _)

theorem Limited.union (hl : left.Limited g) (hr : right.Limited g) : (Blueprint.union left right).Limited g := by
  intro u hu xs v htrace
  obtain ⟨s, hs, hu⟩ := Metered.answer_bind_eq_ok_iff.mp hu
  obtain ⟨t, ht, hu⟩ := Metered.answer_bind_eq_ok_iff.mp hu
  cases hu
  obtain ⟨ys, u', hunion, -, hxs, -⟩ := (Buffered.follows _ _ _).exists_traces .start htrace
  obtain ⟨as, bs, s', t', has, hbs, hys⟩ := UnionState.exists_traces hunion
  have hleft : as.length ≤ (left.access g).capacity s := hl s hs as s' has
  have hright : bs.length ≤ (right.access g).capacity t := hr t ht bs t' hbs
  have hlength := hxs.length_le
  show xs.length ≤ 0 + ((left.access g).capacity s + (right.access g).capacity t + 2)
  omega

end Blueprint

/-! ### Plans -/

namespace Plan

/-- Whatever the limit on collected sets, the cursor of the plan finds no more handles than its capacity is. -/
def Limited (g : Graph) (plan : Plan) : Prop := ∀ limit, (plan.blueprint limit).Limited g

variable {plan base : Plan} {plans : List Plan} {steps : List FilterStep} {mapping : Mapping}

theorem limited_of_distinct (hstore : g.store.Consistent) (h : plan.Distinct g false) : plan.Limited g :=
  fun limit => Blueprint.limited_of_distinct hstore (h limit)

theorem Limited.filtered (h : base.Limited g) : (Plan.filtered base steps).Limited g := by
  cases steps with
  | nil => exact h
  | cons step steps => exact fun limit => (h limit).filter

theorem Limited.map (h : base.Limited g) : (Plan.map base mapping).Limited g := fun limit => (h limit).map

theorem limited_unionAll (hstore : g.store.Consistent) (h : ∀ plan ∈ plans, plan.Limited g) :
    (Plan.unionAll plans).Limited g := by
  cases plans with
  | nil => exact limited_of_distinct hstore fun _ => Blueprint.distinct_reading (by simp)
  | cons plan plans =>
    exact List.foldlRecOn (motive := fun plan : Plan => plan.Limited g) _ _ (h plan (by simp))
      fun left hleft right hright limit => (hleft limit).union (h right (by simp [hright]) limit)

end Plan

namespace Planner

open Condition

variable {p : Planner} {f : Condition → Except QueryError Plan} {c : Condition} {cs : List Condition} {plan : Plan}
  {L : Condition → Prop}

section Operands

variable (hstore : p.graph.store.Consistent) (hf : ∀ operand plan, f operand = .ok plan → plan.Limited p.graph)

include hstore hf

private theorem limited_planWith_leaf (hleaf : c.isCombinator = false) (h : p.planWith f c = .ok plan) :
    plan.Limited p.graph := by
  rcases map_cases c with ⟨operand, mapping, rfl⟩ | hmap
  · rw [planWith] at h
    obtain ⟨base, hbase, h⟩ := bind_eq_ok_iff.mp h
    cases h
    exact (hf operand base hbase).map
  · rw [planWith_of_leaf hleaf hmap] at h
    exact Plan.limited_of_distinct hstore (distinct_planLeaf hstore (by simp) h)

private theorem limited_planWith_arm (harm : ArmOf L c) (h : p.planWith f c = .ok plan) : plan.Limited p.graph := by
  rcases isArm_cases harm.isArm with hleaf | ⟨cs, rfl, hleaf⟩
  · exact limited_planWith_leaf hstore hf hleaf h
  · rw [planWith] at h
    obtain ⟨es, hes, h⟩ := bind_eq_ok_iff.mp h
    have hstreams := (forall_mem_conjuncts (f := f) hes fun c hc e he => streams_conjunct hstore (hleaf c hc) he).1
    have hlimited := (forall_mem_conjuncts (S := fun x => ∀ plan, x.plan = .ok plan → plan.Limited p.graph) hes
      fun c hc _ _ _ => limited_planWith_leaf hstore hf (hleaf c hc)).1
    obtain ⟨base, steps, rfl, hbase | ⟨x, hx, hplan⟩⟩ := base_of_planConjunction hstreams h
    · exact (Plan.limited_of_distinct hstore hbase).filtered
    · exact (hlimited x hx base hplan).filtered

private theorem limited_planWith (hnormal : NormalFormOf L c) (h : p.planWith f c = .ok plan) :
    plan.Limited p.graph := by
  cases c with
  | or cs =>
    rw [planWith, plansWith_eq_map, List.mapM_map] at h
    obtain ⟨plans, hplans, h⟩ := bind_eq_ok_iff.mp h
    cases h
    refine Plan.limited_unionAll hstore fun plan hplan => ?_
    obtain ⟨c, hc, h⟩ := (mem_of_mapM_eq_ok hplans).mp hplan
    exact limited_planWith_arm hstore hf (hnormal.arms c hc) h
  | _ => exact limited_planWith_arm hstore hf (hnormal.arms _ (List.mem_singleton_self _)) h

end Operands

theorem limited_planNested (hstore : p.graph.store.Consistent) (depth : Nat)
    (hnormal : NormalFormOf (Names fun _ _ _ => True) c) (h : p.planNested depth c = .ok plan) :
    plan.Limited p.graph := by
  induction depth generalizing c plan with
  | zero => exact limited_planWith hstore (fun _ _ hplan => by simp at hplan) hnormal h
  | succ depth ih =>
    refine limited_planWith hstore (fun operand plan hplan => ?_) hnormal h
    obtain ⟨d, hd, hplan⟩ := bind_eq_ok_iff.mp hplan
    exact ih (normalFormOf_names (fun _ _ _ _ => trivial) (fun _ _ _ _ _ _ => trivial) hd) hplan

/-- The plan of a prepared condition finds no more handles than the capacity of its cursor is. -/
theorem limited_plan {d : Condition} (hstore : p.graph.store.Consistent) (hd : p.prepare c = .ok d)
    (h : p.plan d = .ok plan) : plan.Limited p.graph :=
  limited_planNested hstore _ (normalFormOf_names (fun _ _ _ _ => trivial) (fun _ _ _ _ _ _ => trivial) hd) h

end Planner

end HyperQuery
