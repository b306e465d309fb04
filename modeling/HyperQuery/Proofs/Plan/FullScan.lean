import HyperQuery.Proofs.Plan.NormalForm

/-!
# Plans without full scans

Whether a plan reads every atom anywhere, in the bases of filters, in what is intersected, united or mapped, or in a test of
a filter, can be read off the plan (`Plan.hasFullScan`). A planner that may not read every atom is compared with one that
may and is the same otherwise: it gives the same plan if that plan has no full scan, and is refused if it has one. This is
a relation between two computations (`Refuses`) with a rule for each way in which computations are put together; it holds
of every stage of planning, and therefore of plans (`Planner.refuses_plan`).
-/

namespace HyperQuery

/-! ### Full scans in plans -/

mutual

/-- Whether the plan reads every atom, at any depth. -/
def Plan.hasFullScan : Plan → Bool
  | .fullScan => true
  | .zigZag left right | .sortedMerge left right | .union left right => left.hasFullScan || right.hasFullScan
  | .filter base steps => base.hasFullScan || FilterStep.haveFullScan steps
  | .map base _ => base.hasFullScan
  | _ => false

/-- Whether the plan of the step reads every atom. -/
def FilterStep.hasFullScan : FilterStep → Bool
  | .predicate _ _ => false
  | .membership plan _ => plan.hasFullScan
  | .materialized plan => plan.hasFullScan

/-- Whether the plan of any of the steps reads every atom. -/
def FilterStep.haveFullScan : List FilterStep → Bool
  | [] => false
  | step :: rest => step.hasFullScan || FilterStep.haveFullScan rest

end

theorem FilterStep.haveFullScan_eq_any {steps : List FilterStep} :
    FilterStep.haveFullScan steps = steps.any FilterStep.hasFullScan := by
  induction steps with
  | nil => rfl
  | cons step rest ih => rw [haveFullScan, ih, List.any_cons]

namespace Plan

variable {base : Plan} {steps : List FilterStep} {plans : List Plan}

@[simp] theorem hasFullScan_filtered :
    (filtered base steps).hasFullScan = (base.hasFullScan || steps.any FilterStep.hasFullScan) := by
  cases steps with
  | nil => simp [filtered]
  | cons step rest => simp [filtered, hasFullScan, FilterStep.haveFullScan_eq_any]

private theorem hasFullScan_foldl_union :
    (plans.foldl union base).hasFullScan = (base.hasFullScan || plans.any hasFullScan) := by
  induction plans generalizing base with
  | nil => simp
  | cons plan plans ih => rw [List.foldl_cons, ih, hasFullScan, List.any_cons, Bool.or_assoc]

@[simp] theorem hasFullScan_unionAll : (unionAll plans).hasFullScan = plans.any hasFullScan := by
  cases plans with
  | nil => rfl
  | cons plan plans => exact hasFullScan_foldl_union

theorem hasFullScan_unionAll_typeScan (types : List AtomId) : (unionAll (types.map typeScan)).hasFullScan = false := by
  simp [hasFullScan]

theorem hasFullScan_foldl_incidence (ids : List AtomId) :
    (ids.foldl (fun plan id => .zigZag plan (.incidence id)) base).hasFullScan = base.hasFullScan := by
  induction ids generalizing base with
  | nil => rfl
  | cons id ids ih =>
    have hid : (incidence id).hasFullScan = false := rfl
    rw [List.foldl_cons, ih, hasFullScan, hid, Bool.or_false]

end Plan

/-! ### Being refused -/

section Refuses

variable {α β ι : Type}

/-- The first computation may read every atom. If what it answers does so, the second one fails because full scans are
disabled, and otherwise it answers the same. -/
def Refuses (scans : α → Bool) (x y : Except QueryError α) : Prop :=
  ∀ a, x = .ok a →
    (scans a = true → ∃ text, y = .error (.plan (.fullScanDisabled text))) ∧ (scans a = false → y = .ok a)

variable {s : α → Bool} {t : β → Bool} {x y : Except QueryError α} {k k' : α → Except QueryError β}

/-- What has no full scan in it is not refused. -/
theorem Refuses.of_not (h : ∀ a, x = .ok a → s a = false) : Refuses s x x := by
  intro a ha
  rw [h a ha]
  exact ⟨by simp, fun _ => ha⟩

theorem Refuses.error {e : QueryError} : Refuses s (.error e) y := by simp [Refuses]

/-- A full scan that a computation answers has to be in what the next one makes of it. -/
theorem Refuses.bind (h : Refuses s x y) (hscans : ∀ a b, s a = true → k a = .ok b → t b = true)
    (hk : ∀ a, x = .ok a → s a = false → Refuses t (k a) (k' a)) : Refuses t (x >>= k) (y >>= k') := by
  intro b hb
  obtain ⟨a, ha, hb⟩ := bind_eq_ok_iff.mp hb
  obtain ⟨hrefused, hsame⟩ := h a ha
  cases hscan : s a with
  | true =>
    obtain ⟨text, hy⟩ := hrefused hscan
    rw [hscans a b hscan hb, hy]
    exact ⟨fun _ => ⟨text, rfl⟩, by simp⟩
  | false =>
    rw [hsame hscan]
    exact hk a ha hscan b hb

/-- Reading on without a full scan of one's own. -/
theorem Refuses.bind_pure (h : Refuses s x y) {f : α → β} (hf : ∀ a, t (f a) = s a) :
    Refuses t (x >>= fun a => pure (f a)) (y >>= fun a => pure (f a)) := by
  refine h.bind (fun a b ha hb => ?_) fun a _ ha => .of_not fun b hb => ?_
  · cases hb
    rwa [hf]
  · cases hb
    rwa [hf]

theorem Refuses.mapM {xs : List ι} {f f' : ι → Except QueryError α} (h : ∀ i ∈ xs, Refuses s (f i) (f' i)) :
    Refuses (fun as => as.any s) (xs.mapM f) (xs.mapM f') := by
  induction xs with
  | nil => exact .of_not fun as has => by cases has; rfl
  | cons i xs ih =>
    rw [List.mapM_cons, List.mapM_cons]
    have hrest := ih fun j hj => h j (by simp [hj])
    refine (h i (by simp)).bind (fun a as ha has => ?_) fun a _ ha => hrest.bind_pure fun as => by simp [ha]
    obtain ⟨rest, -, has⟩ := bind_eq_ok_iff.mp has
    cases has
    simp [ha]

end Refuses

/-! ### Stages of planning -/

namespace Conjunct

/-- The conjunct with another plan, made from its condition. -/
def replanned (plan : Condition → Except QueryError Plan) (x : Conjunct) : Conjunct := { x with plan := plan x.condition }

theorem keepsFlags_replanned (plan : Condition → Except QueryError Plan) : KeepsFlags (replanned plan) :=
  fun _ => ⟨rfl, rfl, rfl, rfl⟩

end Conjunct

namespace Planner

/-- The planner with full scans forbidden, or allowed. -/
def withFullScan (p : Planner) (allowed : Bool) : Planner := ⟨{ p.config with allowFullScan := allowed }, p.graph⟩

variable {p : Planner} {c : Condition} {f f' g : Condition → Except QueryError Plan} {xs : List Conjunct} {b : Buckets}

/-! #### Leaves -/

theorem refuses_fullScan : Refuses Plan.hasFullScan ((p.withFullScan true).fullScan c) ((p.withFullScan false).fullScan c) := by
  intro plan hplan
  cases hplan
  exact ⟨fun _ => ⟨_, rfl⟩, by simp [Plan.hasFullScan]⟩

theorem refuses_filteredFullScan (cost : Double) : Refuses Plan.hasFullScan
    ((p.withFullScan true).filteredFullScan c cost) ((p.withFullScan false).filteredFullScan c cost) :=
  refuses_fullScan.bind_pure fun plan => by simp [FilterStep.hasFullScan]

private theorem refuses_typedValue (ty : AtomId) (literal : Value) (op : Comparison) (cost : Double) : Refuses Plan.hasFullScan
    ((p.withFullScan true).typedValue c ty literal op cost) ((p.withFullScan false).typedValue c ty literal op cost) := by
  refine .of_not fun plan hplan => ?_
  obtain ⟨index?, -, hplan⟩ := bind_eq_ok_iff.mp hplan
  cases index? with
  | some index =>
    cases hplan
    rfl
  | none =>
    cases hplan
    simp [Plan.hasFullScan, FilterStep.hasFullScan]

private theorem refuses_linkPattern (pattern : List Target) : Refuses Plan.hasFullScan
    ((p.withFullScan true).linkPattern c pattern) ((p.withFullScan false).linkPattern c pattern) := by
  unfold linkPattern
  by_cases hempty : pattern.isEmpty = true
  · simp only [if_pos hempty]
    exact .of_not fun plan hplan => by cases hplan; rfl
  · simp only [if_neg hempty]
    refine Refuses.bind (s := fun _ => false) (.of_not fun _ _ => rfl) (by simp) fun e _ _ => ?_
    rcases LinkPattern.concrete pattern with _ | ⟨id, ids⟩
    · exact refuses_filteredFullScan _
    · refine .of_not fun plan hplan => ?_
      cases hplan
      rw [Plan.hasFullScan_filtered, Plan.hasFullScan_foldl_incidence]
      simp [Plan.hasFullScan, FilterStep.hasFullScan]

theorem refuses_planLeaf :
    Refuses Plan.hasFullScan ((p.withFullScan true).planLeaf c) ((p.withFullScan false).planLeaf c) := by
  -- the estimate is the same for both
  have hestimate : ∀ {k k' : Estimate → Except QueryError Plan}, (∀ e, Refuses Plan.hasFullScan (k e) (k' e)) →
      Refuses Plan.hasFullScan (c.estimate p.graph >>= k) (c.estimate p.graph >>= k') := fun hk =>
    Refuses.bind (s := fun _ => false) (.of_not fun _ _ => rfl) (by simp) fun e _ _ => hk e
  cases c with
  | any => exact refuses_fullScan
  | value literal op =>
    refine hestimate fun e => ?_
    simp only [withFullScan]
    rcases p.graph.store.typeOfValue literal with _ | ty
    · exact refuses_filteredFullScan _
    · exact refuses_typedValue ty literal op _
  | typedValue ty literal op =>
    refine hestimate fun e => ?_
    refine Refuses.bind (s := fun _ => false) (.of_not fun _ _ => rfl) (by simp) fun ty _ _ => ?_
    exact refuses_typedValue ty literal op _
  | link pattern | orderedLink pattern => exact refuses_linkPattern pattern
  | nothing | incident id | targetOf id | walk w => exact .of_not fun plan hplan => by cases hplan; rfl
  | ofType ty =>
    refine .of_not fun plan hplan => ?_
    obtain ⟨id, -, hplan⟩ := bind_eq_ok_iff.mp hplan
    cases hplan
    rfl
  | ofTypePlus ty =>
    refine .of_not fun plan hplan => ?_
    obtain ⟨id, -, hplan⟩ := bind_eq_ok_iff.mp hplan
    obtain ⟨types, -, hplan⟩ := bind_eq_ok_iff.mp hplan
    cases hplan
    exact Plan.hasFullScan_unionAll_typeScan types
  | indexedPart ty path index literal op =>
    refine .of_not fun plan hplan => ?_
    simp only [planLeaf] at hplan
    split at hplan
    · cases hplan
      rfl
    · obtain ⟨e, -, hplan⟩ := bind_eq_ok_iff.mp hplan
      cases hplan
      simp [Plan.hasFullScan, FilterStep.hasFullScan]
  | subsumes id | subsumed id => exact .of_not fun plan hplan => by cases hplan; rfl
  | _ =>
    refine hestimate fun e => ?_
    by_cases htestable : e.isPredicate = true
    · simp only [if_pos htestable]
      exact refuses_filteredFullScan _
    · simp only [if_neg htestable]
      exact .error

/-! #### Conjunctions -/

section Intersect

variable {merge : Plan → Plan → Plan} {base base' : Option Plan}
  (hmerge : ∀ left right, (merge left right).hasFullScan = (left.hasFullScan || right.hasFullScan))

include hmerge

private theorem any_merge (base : Option Plan) (plan : Plan) :
    (some (match base with
      | some left => merge left plan
      | none => plan)).any Plan.hasFullScan = (base.any Plan.hasFullScan || plan.hasFullScan) := by
  cases base with
  | none => rfl
  | some left => exact hmerge left plan

/-- What is intersected keeps the full scan of what is intersected at first. -/
theorem hasFullScan_intersect (h : intersect merge base xs = .ok base') (hbase : base.any Plan.hasFullScan = true) :
    base'.any Plan.hasFullScan = true := by
  induction xs generalizing base with
  | nil =>
    cases h
    exact hbase
  | cons x xs ih =>
    obtain ⟨plan, -, h⟩ := bind_eq_ok_iff.mp h
    exact ih h ((any_merge hmerge base plan).trans (by rw [hbase, Bool.true_or]))

theorem refuses_intersect (hxs : ∀ x ∈ xs, Refuses Plan.hasFullScan x.plan (g x.condition))
    (hbase : base.any Plan.hasFullScan = false) :
    Refuses (fun base => base.any Plan.hasFullScan) (intersect merge base xs)
      (intersect merge base (xs.map (.replanned g))) := by
  induction xs generalizing base with
  | nil =>
    refine .of_not fun base' hbase' => ?_
    cases hbase'
    exact hbase
  | cons x xs ih =>
    have hnext := fun plan => (any_merge hmerge base plan).trans (by rw [hbase, Bool.false_or])
    refine (hxs x (by simp)).bind (fun plan base' hplan h => ?_) fun plan _ hplan => ?_
    · exact hasFullScan_intersect hmerge h ((hnext plan).trans hplan)
    · exact ih (fun y hy => hxs y (by simp [hy])) ((hnext plan).trans hplan)

end Intersect

private theorem any_sorted {tests probes : List FilterStep} (htests : tests.any FilterStep.hasFullScan = false)
    {le : FilterStep → FilterStep → Bool} :
    ((tests ++ probes).mergeSort le).any FilterStep.hasFullScan = probes.any FilterStep.hasFullScan := by
  rw [(List.mergeSort_perm (tests ++ probes) le).any_eq, List.any_append, htests, Bool.false_or]

private theorem any_tests : (b.tests.map fun x => FilterStep.predicate x.condition x.testCost).any FilterStep.hasFullScan =
    false := by
  simp [FilterStep.hasFullScan]

theorem refuses_steps (hprobed : ∀ x ∈ b.probed, Refuses Plan.hasFullScan x.plan (g x.condition))
    (hcollected : ∀ x ∈ b.collected, Refuses Plan.hasFullScan x.plan (g x.condition)) :
    Refuses (fun ss => ss.any FilterStep.hasFullScan) (steps b) (steps (b.mapped (.replanned g))) := by
  simp only [steps, Buckets.mapped, List.map_map, List.mapM_map, Function.comp_def]
  have hprobes := Refuses.mapM fun x hx =>
    (hprobed x hx).bind_pure (t := FilterStep.hasFullScan) (f := fun plan => .membership plan x.testCost) fun _ => rfl
  have hgathers := Refuses.mapM fun x hx =>
    (hcollected x hx).bind_pure (t := FilterStep.hasFullScan) (f := fun plan => .materialized plan) fun _ => rfl
  refine hprobes.bind (fun probes ss hscan hss => ?_) fun probes _ hscan => ?_
  · obtain ⟨collected, -, hss⟩ := bind_eq_ok_iff.mp hss
    cases hss
    rw [List.any_append, any_sorted any_tests, hscan, Bool.true_or]
  · refine hgathers.bind_pure fun collected => ?_
    rw [List.any_append, any_sorted any_tests, hscan, Bool.false_or]

private theorem refuses_filtered {base : Plan} (hbase : base.hasFullScan = false)
    (hprobed : ∀ x ∈ b.probed, Refuses Plan.hasFullScan x.plan (g x.condition))
    (hcollected : ∀ x ∈ b.collected, Refuses Plan.hasFullScan x.plan (g x.condition)) :
    Refuses Plan.hasFullScan (steps b >>= fun ss => pure (.filtered base ss))
      (steps (b.mapped (.replanned g)) >>= fun ss => pure (.filtered base ss)) :=
  (refuses_steps hprobed hcollected).bind_pure fun ss => by rw [Plan.hasFullScan_filtered, hbase, Bool.false_or]

/-- The plan from a base that reads every atom does so too. -/
private theorem hasFullScan_of_filtered {base plan : Plan} (hbase : base.hasFullScan = true)
    (h : (steps b >>= fun ss => pure (.filtered base ss)) = .ok plan) : plan.hasFullScan = true := by
  obtain ⟨ss, -, h⟩ := bind_eq_ok_iff.mp h
  cases h
  rw [Plan.hasFullScan_filtered, hbase, Bool.true_or]

/-- Filtering a base that one of the two may be refused. -/
private theorem refuses_filtered_bind {x y : Except QueryError Plan} (h : Refuses Plan.hasFullScan x y)
    (hprobed : ∀ x ∈ b.probed, Refuses Plan.hasFullScan x.plan (g x.condition))
    (hcollected : ∀ x ∈ b.collected, Refuses Plan.hasFullScan x.plan (g x.condition)) :
    Refuses Plan.hasFullScan (x >>= fun base => steps b >>= fun ss => pure (.filtered base ss))
      (y >>= fun base => steps (b.mapped (.replanned g)) >>= fun ss => pure (.filtered base ss)) :=
  h.bind (fun _ _ hbase h => hasFullScan_of_filtered hbase h) fun _ _ hbase => refuses_filtered hbase hprobed hcollected

/-- Whichever conjunct is chosen to start with, it is the same one for both. -/
private theorem refuses_chooseBase (hprobed : ∀ x ∈ b.probed, Refuses Plan.hasFullScan x.plan (g x.condition))
    (hcollected : ∀ x ∈ b.collected, Refuses Plan.hasFullScan x.plan (g x.condition)) :
    Refuses Plan.hasFullScan
      ((p.withFullScan true).chooseBase c b >>= fun (base, rest) => steps rest >>= fun ss => pure (.filtered base ss))
      ((p.withFullScan false).chooseBase c (b.mapped (.replanned g)) >>= fun (base, rest) =>
        steps rest >>= fun ss => pure (.filtered base ss)) := by
  have htake : ∀ {less : Conjunct → Conjunct → Bool} {ys : List Conjunct},
      (∀ x ∈ ys, ∀ y ∈ ys, less (x.replanned g) (y.replanned g) = less x y) →
      Conjunct.takeLeast less (ys.map (.replanned g)) =
        (Conjunct.takeLeast less ys).map fun (x, rest) => (x.replanned g, rest.map (.replanned g)) := Conjunct.takeLeast_map
  unfold chooseBase
  simp only [Buckets.mapped]
  rw [htake fun _ _ _ _ => rfl, htake fun _ _ _ _ => rfl]
  rcases hleast : Conjunct.takeLeast Conjunct.expectsFewer b.collected with _ | ⟨least, others⟩
  · have hnone := Conjunct.eq_nil_of_takeLeast hleast
    rcases hleast : Conjunct.takeLeast Conjunct.testsCheaper b.probed with _ | ⟨least, others⟩
    · simp only [Option.map_none, bind_assoc, pure_bind]
      exact refuses_filtered_bind refuses_fullScan hprobed hcollected
    · have hmem : ∀ x ∈ least :: others, x ∈ b.probed := fun x => (Conjunct.perm_of_takeLeast hleast).mem_iff.mpr
      simp only [Option.map_some, Option.map_none, bind_assoc, pure_bind]
      exact refuses_filtered_bind (b := { b with probed := others }) (hprobed least (hmem least (by simp)))
        (fun x hx => hprobed x (hmem x (by simp [hx]))) hcollected
  · have hmem : ∀ x ∈ least :: others, x ∈ b.collected := fun x => (Conjunct.perm_of_takeLeast hleast).mem_iff.mpr
    simp only [Option.map_some, bind_assoc, pure_bind]
    exact refuses_filtered_bind (b := { b with collected := others }) (hcollected least (hmem least (by simp))) hprobed
      fun x hx => hcollected x (hmem x (by simp [hx]))

theorem refuses_planConjunction (hxs : ∀ x ∈ xs, Refuses Plan.hasFullScan x.plan (g x.condition)) :
    Refuses Plan.hasFullScan ((p.withFullScan true).planConjunction c xs)
      ((p.withFullScan false).planConjunction c (xs.map (.replanned g))) := by
  have hbuckets : ((xs.map (.replanned g)).foldl Buckets.add .empty).settle =
      ((xs.foldl Buckets.add .empty).settle).mapped (.replanned g) := by
    rw [Buckets.mapped_settle, Buckets.mapped_foldl_add (Conjunct.keepsFlags_replanned g)]
    rfl
  have hall : ∀ x ∈ (xs.foldl Buckets.add .empty).settle.all, Refuses Plan.hasFullScan x.plan (g x.condition) := by
    intro x hx
    rw [Buckets.all_settle, Buckets.perm_all_foldl_add.mem_iff] at hx
    exact hxs x hx
  unfold planConjunction
  rw [hbuckets]
  generalize (xs.foldl Buckets.add .empty).settle = b at hall
  have hprobed : ∀ x ∈ b.probed, Refuses Plan.hasFullScan x.plan (g x.condition) := fun x hx =>
    hall x (by simp [Buckets.all, Buckets.tested, hx])
  have hcollected : ∀ x ∈ b.collected, Refuses Plan.hasFullScan x.plan (g x.condition) := fun x hx =>
    hall x (by simp [Buckets.all, Buckets.tested, hx])
  refine (refuses_intersect (fun _ _ => rfl) (fun x hx => hall x (by simp [Buckets.all, hx])) rfl).bind
    (fun zigZags plan hscan h => ?_) fun zigZags _ hzigZags => ?_
  · obtain ⟨base, hbase, h⟩ := bind_eq_ok_iff.mp h
    obtain ⟨base, rfl, hscan⟩ := (Option.any_eq_true _ _).mp (hasFullScan_intersect (fun _ _ => rfl) hbase hscan)
    exact hasFullScan_of_filtered hscan h
  · refine (refuses_intersect (fun _ _ => rfl) (fun x hx => hall x (by simp [Buckets.all, hx])) hzigZags).bind
      (fun base plan hscan h => ?_) fun base _ hbase => ?_
    · obtain ⟨base, rfl, hscan⟩ := (Option.any_eq_true _ _).mp hscan
      exact hasFullScan_of_filtered hscan h
    · cases base with
      | none => exact refuses_chooseBase hprobed hcollected
      | some base => exact refuses_filtered hbase hprobed hcollected

/-! #### Conditions -/

/-- The conjuncts of the second planner are those of the first one with other plans. -/
private theorem map_replanned (p p' : Planner) (f f' : Condition → Except QueryError Plan) {cs : List Condition}
    {es : List Estimate} :
    (((cs.zip (es.zip (p.plansWith f cs))).map fun (c, e, plan) => Conjunct.mk c e plan).map
      (Conjunct.replanned (p'.planWith f'))) =
      (cs.zip (es.zip (p'.plansWith f' cs))).map fun (c, e, plan) => Conjunct.mk c e plan := by
  induction cs generalizing es with
  | nil => rfl
  | cons c cs ih =>
    cases es with
    | nil => rfl
    | cons e es =>
      simp only [plansWith, List.zip_cons_cons, List.map_cons, ih]
      rfl

theorem refuses_planWith (hf : ∀ operand, Refuses Plan.hasFullScan (f operand) (f' operand)) :
    Refuses Plan.hasFullScan ((p.withFullScan true).planWith f c) ((p.withFullScan false).planWith f' c) := by
  induction c using Condition.combinatorInduction with
  | or cs ih =>
    simp only [planWith, plansWith_eq_map, List.mapM_map, Function.comp_def, id_eq]
    exact (Refuses.mapM ih).bind_pure fun plans => Plan.hasFullScan_unionAll
  | and cs ih =>
    simp only [planWith]
    refine Refuses.bind (s := fun _ => false) (.of_not fun _ _ => rfl) (by simp) fun es hes _ => ?_
    rw [← map_replanned (p.withFullScan true) (p.withFullScan false) f f']
    exact refuses_planConjunction (forall_mem_conjuncts hes fun c hc _ _ => ih c hc).1
  | leaf c hleaf =>
    rcases Condition.map_cases c with ⟨operand, mapping, rfl⟩ | hmap
    · simp only [planWith]
      exact (hf operand).bind_pure fun plan => rfl
    · rw [planWith_of_leaf hleaf hmap, planWith_of_leaf hleaf hmap]
      exact refuses_planLeaf

theorem refuses_planNested (depth : Nat) :
    Refuses Plan.hasFullScan ((p.withFullScan true).planNested depth c) ((p.withFullScan false).planNested depth c) := by
  induction depth generalizing c with
  | zero => exact refuses_planWith fun operand => .error
  | succ depth ih =>
    refine refuses_planWith fun operand => ?_
    exact Refuses.bind (s := fun _ => false) (.of_not fun _ _ => rfl) (by simp) fun _ _ _ => ih

/-- A planner that may not read every atom gives the plan of one that may, unless that plan reads every atom. -/
theorem refuses_plan : Refuses Plan.hasFullScan ((p.withFullScan true).plan c) ((p.withFullScan false).plan c) :=
  refuses_planNested c.mapDepth

end Planner

end HyperQuery
