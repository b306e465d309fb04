import HyperQuery.Proofs.Cursor.Traces
import HyperQuery.Proofs.Plan.Answers
import HyperQuery.Proofs.Plan.NormalForm

/-!
# Which plans repeat handles

A conjunction reads its candidates from one side, its driver (`Plan.driver`): all that intersections and filters do is to
leave some of them out (`Plan.Distinct.filtered`). The leaves other than mappings are planned so that no handle is repeated
(`distinct_planLeaf`), and hence a conjunction repeats handles only if a mapping drives it (`driver_planConjunction`). Then
it finds images of what the operand of the mapping finds (`Plan.exists_traces_of_driver`).

All this is independent of the indexes that the condition names, and of the tests that users supply.
-/

namespace HyperQuery

variable {g : Graph}

/-! ### Blueprints -/

namespace Blueprint

/-- Opened on the graph, the cursor repeats no handle. -/
def Distinct (g : Graph) (b : Blueprint) (seeks : Bool) : Prop :=
  ∀ s, (b.access g).start.answer = .ok s → (b.access g).toNavigation.forward.Distinct seeks s

variable {b left right base : Blueprint} {items : List AtomId} {ordered seekable seeks : Bool} {checks : List Check}

theorem Lists.distinct (h : b.Lists g items ordered seekable)
    (hseeks : seeks = true → ordered = true ∧ seekable = true) : b.Distinct g seeks := by
  obtain ⟨R, s, hs, hR, hyields, -, hnodup⟩ := h
  intro s' hs'
  rw [hs] at hs'
  cases hs'
  cases seeks with
  | true =>
    obtain ⟨rfl, rfl⟩ := hseeks rfl
    exact hyields.distinct_of_ordered hR
  | false => exact hyields.distinct hR hnodup (by simp)

/-- Snapshots that are taken of the graph are sorted or hashed. -/
private theorem exists_ids_of_take {r : Reading} {snap : Snapshot} (hgiven : ∀ snap, r ≠ .given snap)
    (h : (r.take g.store).answer = .ok snap) : ∃ ids, snap = .sorted ids ∨ snap = .hashed ids := by
  cases r with
  | nothing =>
    cases h
    exact ⟨[], .inl rfl⟩
  | everything | ofType ty | incident id =>
    cases h
    exact ⟨_, .inl rfl⟩
  | targets link =>
    obtain ⟨a, -, h⟩ := Metered.answer_bind_eq_ok_iff.mp h
    cases h
    exact ⟨_, .inl rfl⟩
  | given snap => exact absurd rfl (hgiven snap)
  | lookup index key op =>
    have hopened : ∀ ids, (index.opened ids).answer = .ok snap → ∃ ids, snap = .sorted ids ∨ snap = .hashed ids := by
      intro ids hids
      rw [IndexHandle.answer_opened] at hids
      cases hids
      split
      · exact ⟨ids, .inr rfl⟩
      · exact ⟨ids, .inl rfl⟩
    change (index.findRange g.store op key).answer = .ok snap at h
    unfold IndexHandle.findRange at h
    split at h
    · exact hopened _ h
    · split at h
      · exact nomatch h
      · exact hopened _ h

/-- Snapshots are sorted, and can be sought forward, or else no closest handle can be sought in them. -/
theorem distinct_reading {r : Reading} (hgiven : ∀ snap, r ≠ .given snap) : (reading r).Distinct g seeks := by
  intro s hs
  obtain ⟨snap, hsnap, hs⟩ := Metered.answer_bind_eq_ok_iff.mp hs
  cases hs
  obtain ⟨ids, rfl | rfl⟩ := exists_ids_of_take hgiven hsnap
  · have hyields : SnapshotCursor.navigation.forward.Yields (AtomSet.ofList ids) true true
        (SnapshotCursor.Rests (.sorted ids)) := SnapshotCursor.yields (.sorted ids) fun _ => AtomSet.sorted_ofList ids
    exact hyields.distinct_of_ordered .before
  · have hyields : SnapshotCursor.navigation.forward.Yields ids.eraseDups false true
        (SnapshotCursor.Rests (.hashed ids)) := SnapshotCursor.yields (.hashed ids) (by simp [Snapshot.hashed])
    refine hyields.distinct .before (AtomSet.nodup_eraseDups ids) fun _ _ _ _ _ _ hR => ?_
    exact SnapshotCursor.not_gives_seekFrom (by simp [Snapshot.hashed]) hR

theorem Distinct.zigZag (hl : left.Distinct g true) : (Blueprint.zigZag left right).Distinct g true := by
  intro u hu
  obtain ⟨s, hs, hu⟩ := Metered.answer_bind_eq_ok_iff.mp hu
  obtain ⟨t, -, hu⟩ := Metered.answer_bind_eq_ok_iff.mp hu
  cases hu
  exact Buffered.distinct_start ((Intersection.zigZag_follows _ _ s).distinct rfl (hl s hs))

theorem Distinct.sortedMerge (hl : left.Distinct g false) : (Blueprint.sortedMerge left right).Distinct g seeks := by
  intro u hu
  obtain ⟨s, hs, hu⟩ := Metered.answer_bind_eq_ok_iff.mp hu
  obtain ⟨t, -, hu⟩ := Metered.answer_bind_eq_ok_iff.mp hu
  cases hu
  exact Buffered.distinct_start ((Intersection.sortedMerge_follows _ _ seeks s).distinct rfl (hl s hs))

theorem Distinct.filter (hbase : base.Distinct g seeks) : (Blueprint.filter base checks).Distinct g seeks := by
  intro u hu
  obtain ⟨s, hs, hu⟩ := Metered.answer_bind_eq_ok_iff.mp hu
  cases hu
  exact Buffered.distinct_start ((Filter.follows _ _ seeks s).distinct rfl (hbase s hs))

end Blueprint

/-! ### Plans -/

namespace Plan

/-- The part of the plan that candidates are read from. -/
def driver : Plan → Plan
  | .filter base _ => base.driver
  | plan => plan

/-- Whether the plan yields the images of a mapping. -/
def isMap : Plan → Bool
  | .map _ _ => true
  | _ => false

theorem driver_filtered {base : Plan} {steps : List FilterStep} : (filtered base steps).driver = base.driver := by
  cases steps with
  | nil => rfl
  | cons step steps => simp [filtered, driver]

theorem isMap_driver {plan : Plan} (h : plan.isMap = true) : plan.driver.isMap = true := by
  cases plan with
  | map base mapping => rfl
  | _ => simp [isMap] at h

/-- Whatever the limit on collected sets, the cursor of the plan repeats no handle. -/
def Distinct (g : Graph) (plan : Plan) (seeks : Bool) : Prop := ∀ limit, (plan.blueprint limit).Distinct g seeks

variable {left right base : Plan} {seeks : Bool} {steps : List FilterStep}

theorem Distinct.mono {seeks' : Bool} (h : base.Distinct g seeks) (hseeks : seeks' = true → seeks = true) :
    base.Distinct g seeks' := fun limit s hs => (h limit s hs).mono hseeks

theorem Distinct.zigZag (hl : left.Distinct g true) : (Plan.zigZag left right).Distinct g true :=
  fun limit => Blueprint.Distinct.zigZag (hl limit)

theorem Distinct.sortedMerge (hl : left.Distinct g false) : (Plan.sortedMerge left right).Distinct g seeks :=
  fun limit => Blueprint.Distinct.sortedMerge (hl limit)

theorem Distinct.filtered (h : base.Distinct g seeks) : (Plan.filtered base steps).Distinct g seeks := by
  cases steps with
  | nil => exact h
  | cons step steps => exact fun limit => (h limit).filter

/-- Where a mapping drives the plan, what the plan finds are images of what the operand finds, in the same order. -/
theorem exists_traces_of_driver {operand : Plan} {mapping : Mapping} {limit : Option Nat} :
    (plan : Plan) → plan.driver = .map operand mapping → ∀ {s ys t},
      ((plan.blueprint limit).access g).start.answer = .ok s →
      ((plan.blueprint limit).access g).toNavigation.forward.Traces false s ys t →
      ∃ s' xs t', ((operand.blueprint limit).access g).start.answer = .ok s' ∧
        ((operand.blueprint limit).access g).toNavigation.forward.Traces false s' xs t' ∧
        ys.Sublist (xs.filterMap (mapping.image g))
  | .filter base steps, hdriver, s, ys, t, hs, htrace => by
    obtain ⟨u, hu, hs⟩ := Metered.answer_bind_eq_ok_iff.mp hs
    cases hs
    obtain ⟨ys', t', hfilter, -, hys', -⟩ := (Buffered.follows _ _ _).exists_traces .start htrace
    obtain ⟨drawn, u', hbase, -, hdrawn, -⟩ := (Filter.follows _ _ _ u).exists_traces rfl hfilter
    obtain ⟨s', xs, v, hs', hxs, hsublist⟩ := exists_traces_of_driver base hdriver hu hbase
    exact ⟨s', xs, v, hs', hxs, (hys'.trans hdrawn).trans hsublist⟩
  | .map base mapping', hdriver, s, ys, t, hs, htrace => by
    cases hdriver
    obtain ⟨u, hu, hs⟩ := Metered.answer_bind_eq_ok_iff.mp hs
    cases hs
    obtain ⟨ys', t', hmap, -, hys', -⟩ := (Buffered.follows _ _ _).exists_traces .start htrace
    obtain ⟨xs, hxs, hsublist⟩ := MapEach.exists_traces (fun x y hy => Mapping.image_eq_some_iff.mpr hy) hmap
    exact ⟨u, xs, t', hu, hxs, hys'.trans hsublist⟩
  | .empty, hdriver, _, _, _, _, _ | .fullScan, hdriver, _, _, _, _, _ | .typeScan _, hdriver, _, _, _, _, _
  | .indexLookup _ _ _, hdriver, _, _, _, _, _ | .incidence _, hdriver, _, _, _, _, _
  | .targetSet _, hdriver, _, _, _, _, _ | .traversal _, hdriver, _, _, _, _, _
  | .zigZag _ _, hdriver, _, _, _, _, _ | .sortedMerge _ _, hdriver, _, _, _, _, _
  | .union _ _, hdriver, _, _, _, _, _ => nomatch hdriver

end Plan

namespace Planner

open Condition

variable {p : Planner} {f : Condition → Except QueryError Plan} {c : Condition} {cs : List Condition} {plan : Plan}
  {seeks : Bool}

/-! ### Leaves -/

private theorem distinct_of_isSet (hset : plan.isSet = true) : plan.Distinct g seeks := by
  obtain ⟨r, hgiven, hr⟩ := Plan.exists_reading_of_isSet hset
  exact fun limit => hr limit ▸ Blueprint.distinct_reading hgiven

private theorem distinct_incidences {id : AtomId} {ids : List AtomId} : (Plan.incidences id ids).Distinct g seeks := by
  have hsought : (Plan.incidences id ids).Distinct g true :=
    Plan.incidences_induction (motive := fun plan => plan.Distinct g true) (fun _ => distinct_of_isSet rfl)
      (fun _ _ hplan => hplan.zigZag) id ids
  exact hsought.mono fun _ => rfl

/-- The plan of a leaf other than a mapping repeats nothing, and can be sought forward unless the leaf is a walk. -/
theorem distinct_planLeaf (hstore : p.graph.store.Consistent) (hseeks : seeks = true → c.walkStart? = none)
    (h : p.planLeaf c = .ok plan) : plan.Distinct p.graph seeks := by
  cases plannedAs_of_planLeaf h with
  | set hset => exact distinct_of_isSet hset
  | @walk w id hwalk =>
    intro limit
    obtain ⟨items, hlists, -⟩ := Blueprint.Lists.walk hstore w
    exact hlists.distinct fun hsought => by simp [hseeks hsought] at hwalk
  | types ids =>
    intro limit
    obtain ⟨items, hlists, -⟩ := finds_unionAll_typeScan hstore ids
    rw [Plan.unlimited_unionAll_typeScan limit]
    exact hlists.distinct fun _ => ⟨rfl, rfl⟩
  | test hbase => exact (distinct_of_isSet hbase).filtered
  | links => exact distinct_incidences.filtered

/-! ### Conjunctions -/

end Planner

/-- What drives a conjunction can be relied on in a conjunct: its plan repeats nothing unless it is a mapping, and can be
sought forward if its estimate is ordered. -/
structure Conjunct.Streams (g : Graph) (x : Conjunct) : Prop where
  distinct : ∀ plan, x.plan = .ok plan → plan.isMap = true ∨ plan.Distinct g false
  ordered : x.estimate.ordered = true → ∀ plan, x.plan = .ok plan → plan.Distinct g true

namespace Planner

open Condition

variable {p : Planner} {f : Condition → Except QueryError Plan} {c : Condition} {cs : List Condition} {e : Estimate}
  {plan : Plan} {xs : List Conjunct}

theorem streams_conjunct (hstore : p.graph.store.Consistent) (hleaf : c.isCombinator = false)
    (he : c.estimate p.graph = .ok e) : Conjunct.Streams p.graph ⟨c, e, p.planWith f c⟩ := by
  rcases map_cases c with ⟨operand, mapping, rfl⟩ | hmap
  · refine ⟨fun plan hplan => .inl ?_, fun ho => absurd (.inl ho) (shape_of_map he).2.not_direct⟩
    rw [planWith] at hplan
    obtain ⟨base, -, hplan⟩ := bind_eq_ok_iff.mp hplan
    cases hplan
    rfl
  · constructor
    · intro plan hplan
      rw [planWith_of_leaf hleaf hmap] at hplan
      exact .inr (distinct_planLeaf hstore (by simp) hplan)
    · intro ho plan hplan
      rw [planWith_of_leaf hleaf hmap] at hplan
      refine distinct_planLeaf hstore (fun _ => ?_) hplan
      rcases hwalk : c.walkStart? with _ | id
      · rfl
      · exact absurd (.inl ho) (shape_of_walk hwalk he).2.1.not_direct

/-- What is intersected from ordered conjuncts repeats nothing. -/
private theorem covers_distinct {b : Buckets} {zigZags base : Option Plan} (hb : b.Sound)
    (hstreams : ∀ x ∈ b.all, x.Streams g) (hzigZags : intersect .zigZag none b.seekable = .ok zigZags)
    (hbase : intersect .sortedMerge zigZags b.ordered = .ok base) :
    Covers (fun plan _ => plan.Distinct g true) (fun _ _ => True) base
      ((b.seekable ++ b.ordered).map Conjunct.condition) := by
  have hsingle : ∀ _ : Condition, (fun _ : AtomId => True) = fun _ => True := fun _ => rfl
  have hconcat : ∀ (_ : List Condition) (_ : Condition), (fun _ : AtomId => True) = fun _ => True ∧ True := by simp
  exact covers_base hsingle hconcat (fun plan _ => plan.Distinct g true) (fun _ _ _ _ hl _ => hl.zigZag)
    (fun _ _ _ _ hl _ => (hl.mono (by simp)).sortedMerge) (fun _ _ h => h)
    (fun x hx => (hstreams x (by simp [Buckets.all, hx])).ordered (hb.seekable x hx).1)
    (fun x hx => (hstreams x (by simp [Buckets.all, hx])).ordered (hb.ordered x hx)) hzigZags hbase

/-- A conjunction filters what repeats nothing or what one of the conjuncts is planned as. -/
theorem base_of_planConjunction (hstreams : ∀ x ∈ xs, x.Streams p.graph) (h : p.planConjunction c xs = .ok plan) :
    ∃ base steps, plan = .filtered base steps ∧ (base.Distinct p.graph false ∨ ∃ x ∈ xs, x.plan = .ok base) := by
  obtain ⟨b, zigZags, base?, hb, -, hall, hzigZags, hbase?, base, rest, ss, hchoice, -, rfl⟩ :=
    stages_of_planConjunction h
  refine ⟨base, ss, rfl, ?_⟩
  rcases hchoice with ⟨rfl, rfl⟩ | ⟨-, hchoice⟩
  · have hbase : base.Distinct p.graph true :=
      covers_distinct hb (fun x hx => hstreams x (hall.mem_iff.mp hx)) hzigZags hbase?
    exact .inl (hbase.mono (by simp))
  · rcases chooseBase_cases hb hchoice with ⟨x, hplan, -, hperm⟩ | ⟨hscan, -⟩
    · have hx : x ∈ b.all := List.mem_append_right _ (hperm.mem_iff.mpr List.mem_cons_self)
      exact .inr ⟨x, hall.mem_iff.mp hx, hplan⟩
    · exact .inl (distinct_of_isSet (eq_of_fullScan hscan ▸ rfl))

/-- A conjunction repeats nothing unless a mapping drives it. -/
theorem driver_planConjunction (hstreams : ∀ x ∈ xs, x.Streams p.graph) (h : p.planConjunction c xs = .ok plan) :
    plan.driver.isMap = true ∨ plan.Distinct p.graph false := by
  obtain ⟨base, steps, rfl, hbase | ⟨x, hx, hplan⟩⟩ := base_of_planConjunction hstreams h
  · exact .inr hbase.filtered
  · rcases (hstreams x hx).distinct base hplan with hmap | hbase
    · rw [Plan.driver_filtered]
      exact .inl (Plan.isMap_driver hmap)
    · exact .inr hbase.filtered

/-- The plan of a conjunction of leaves repeats nothing unless a mapping drives it. -/
theorem driver_planWith_and (hstore : p.graph.store.Consistent) (hleaf : ∀ l ∈ cs, l.isCombinator = false)
    (h : p.planWith f (.and cs) = .ok plan) :
    plan.driver.isMap = true ∨ plan.Distinct p.graph false := by
  rw [planWith] at h
  obtain ⟨es, hes, h⟩ := bind_eq_ok_iff.mp h
  exact driver_planConjunction (forall_mem_conjuncts hes fun c hc e he => streams_conjunct hstore (hleaf c hc) he).1 h

end Planner

end HyperQuery
