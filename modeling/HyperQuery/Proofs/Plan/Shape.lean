import HyperQuery.Proofs.Condition.Testing
import HyperQuery.Proofs.Plan.NormalForm
import HyperQuery.Proofs.Plan.Prepare
import HyperQuery.Proofs.Store.Growth

/-!
# What plans depend on

An estimate consists of sizes and of a shape (`Estimate.shape`): whether results are ordered, can be sought or tested, and
at which cost. While a store grows, preparation gives the same condition (`Grows.simplify`), and estimates change in their
sizes only (`exists_estimate_of_grows`). Planning a conjunction looks at sizes to choose which collected set to start with
(`planConjunction_shaped`). Without mappings all of these are walks, of which nothing is expected but a share of all
atoms, so the choice does not depend on the sizes either, and the plan of a condition in disjunctive normal form stays the
same (`planWith_of_grows`).
-/

namespace HyperQuery

/-! ### Shapes -/

namespace Estimate

variable {e : Estimate} {es : List Estimate}

/-- The estimate without sizes. -/
def shape (e : Estimate) : Estimate := { e with lower := 0, upper := 0, expected := 0 }

theorem cost_eq_of_shape {d : Estimate} (h : d.shape = e.shape) : d.cost = e.cost := by
  have hcost := congrArg cost h
  exact hcost

theorem isPredicate_eq_of_shape {d : Estimate} (h : d.shape = e.shape) : d.isPredicate = e.isPredicate := by
  rw [isPredicate, cost_eq_of_shape h, ← isPredicate]

private theorem shape_foldl {step : Estimate → Estimate → Estimate}
    (hstep : ∀ a b, (step a b).shape = step a.shape b.shape) :
    (es.foldl step e).shape = (es.map shape).foldl step e.shape := by
  induction es generalizing e with
  | nil => rfl
  | cons d es ih => rw [List.foldl_cons, ih, hstep, List.map_cons, List.foldl_cons]

theorem shape_conjunction (total : Nat) : (conjunction total es).shape = conjunction 0 (es.map shape) := by
  cases es with
  | nil => rfl
  | cons d es => exact @shape_foldl _ (d :: es) meet fun _ _ => rfl

theorem shape_disjunction (total : Nat) : (disjunction total es).shape = disjunction 0 (es.map shape) := by
  cases es with
  | nil => rfl
  | cons d es =>
    have hsum : ((d :: es).foldl join ⟨true, true, 0, 0, 0, .zero, true⟩).shape =
        ((d :: es).map shape).foldl join ⟨true, true, 0, 0, 0, .zero, true⟩ := shape_foldl fun _ _ => rfl
    rw [List.map_cons] at hsum ⊢
    simp only [disjunction, ← hsum, List.length_cons, List.length_map]
    rfl

end Estimate

/-! ### Preparation -/

namespace Store.Grows

open Condition

variable {s s' : Store} (h : s.Grows s')

include h

private theorem addLeaf (k : Conjunction) (c : Condition) : k.addLeaf s' c = k.addLeaf s c := by
  cases c <;> simp only [Conjunction.addLeaf, h.resolve, h.typeOfValue]

private theorem toCondition (k : Conjunction) : k.toCondition s' = k.toCondition s := by
  have hindex : Conjunction.indexFor s' = Conjunction.indexFor s := by
    funext ty path op
    simp only [Conjunction.indexFor, h.partIndex?]
  have hindexed : k.indexedParts s' = k.indexedParts s := by rw [Conjunction.indexedParts, hindex, ← Conjunction.indexedParts]
  have hplain : k.plainParts s' = k.plainParts s := by rw [Conjunction.plainParts, hindex, ← Conjunction.plainParts]
  simp only [Conjunction.toCondition, Conjunction.typeAndValues, hindexed, hplain, h.descriptor]

private theorem absorb_and_simplify (c : Condition) :
    (∀ k, absorb s' k c = absorb s k c) ∧ simplify s' c = simplify s c := by
  induction c using combinatorInduction with
  | and cs ih =>
    have hall : ∀ k, absorbAll s' k cs = absorbAll s k cs := by
      induction cs with
      | nil => exact fun _ => rfl
      | cons c cs ihcs =>
        intro k
        simp only [absorbAll, (ih c (by simp)).1, ihcs fun d hd => ih d (by simp [hd])]
    exact ⟨fun k => by rw [absorb, absorb, hall], by simp only [simplify, hall, h.toCondition]⟩
  | or cs ih =>
    have harms : simplifyArms s' cs = simplifyArms s cs := by
      induction cs with
      | nil => rfl
      | cons c cs ihcs => simp only [simplifyArms, (ih c (by simp)).2, ihcs fun d hd => ih d (by simp [hd])]
    exact ⟨fun k => by rw [absorb, absorb, harms], by rw [simplify, simplify, harms]⟩
  | leaf c hleaf =>
    refine ⟨fun k => ?_, by rw [simplify_of_not_isCombinator hleaf, simplify_of_not_isCombinator hleaf]⟩
    cases c with
    | and cs | or cs => simp [isCombinator] at hleaf
    | _ => simp only [absorb, h.addLeaf]

/-- Preparation depends on the types and the indexes over parts only. -/
protected theorem simplify (c : Condition) : simplify s' c = simplify s c := (h.absorb_and_simplify c).2

theorem valueLookup (ty : AtomId) (op : Comparison) : s'.valueLookup ty op = s.valueLookup ty op := by
  simp only [Store.valueLookup, h.descriptor, h.valueIndex?]

/-! ### Estimates -/

variable {catalog : Catalog} {c : Condition} {cs : List Condition} {e : Estimate} {es : List Estimate}

private theorem exists_typedValue {ty : AtomId} {literal : Value} {op : Comparison}
    (he : estimateTypedValue s ty literal op = .ok e) :
    ∃ e', estimateTypedValue s' ty literal op = .ok e' ∧ e'.shape = e.shape := by
  obtain ⟨index?, hindex, he⟩ := bind_eq_ok_iff.mp he
  have hindex' : s'.valueLookup ty op = .ok index? := (h.valueLookup ty op).trans hindex
  cases index? with
  | none =>
    cases he
    exact ⟨_, bind_eq_ok_iff.mpr ⟨none, hindex', rfl⟩, rfl⟩
  | some index =>
    cases hop : op == .eq with
    | true =>
      simp only [hop, if_true] at he
      cases he
      exact ⟨_, bind_eq_ok_iff.mpr ⟨some index, hindex', if_pos hop⟩, rfl⟩
    | false =>
      simp only [hop, Bool.false_eq_true, if_false] at he
      cases he
      exact ⟨_, bind_eq_ok_iff.mpr ⟨some index, hindex', if_neg (by simp [hop])⟩, rfl⟩

omit h in
private theorem shape_estimateIndexedPart (index : IndexHandle) (literal : Value) (op : Comparison) :
    (estimateIndexedPart s' index literal op).shape = (estimateIndexedPart s index literal op).shape := by
  unfold estimateIndexedPart
  split
  · split <;> rfl
  · split <;> rfl

omit h in
private theorem shape_estimateLink (pattern : List Target) :
    (estimateLink s' pattern).shape = (estimateLink s pattern).shape := by
  unfold estimateLink
  split
  · rfl
  · split <;> rfl

variable (hs : s.Consistent) (hs' : s'.Consistent)

include hs hs'

private theorem exists_estimateLeaf (he : estimateLeaf ⟨s, catalog⟩ c = .ok e) :
    ∃ e', estimateLeaf ⟨s', catalog⟩ c = .ok e' ∧ e'.shape = e.shape := by
  have hresolve : ∀ {ty : TypeRef} {id}, ty.resolve s = .ok id → ty.resolve s' = .ok id := fun hid => (h.resolve _).trans hid
  cases c with
  | ofType ty =>
    obtain ⟨id, hid, he⟩ := bind_eq_ok_iff.mp he
    cases he
    exact ⟨_, bind_eq_ok_iff.mpr ⟨id, hresolve hid, rfl⟩, rfl⟩
  | ofTypePlus ty =>
    obtain ⟨id, hid, he⟩ := bind_eq_ok_iff.mp he
    obtain ⟨below, hbelow, he⟩ := bind_eq_ok_iff.mp he
    cases he
    have hbelow' : s'.subtypes id = .ok below := (h.subtypes hs hs' id).trans hbelow
    exact ⟨_, bind_eq_ok_iff.mpr ⟨id, hresolve hid, bind_eq_ok_iff.mpr ⟨below, hbelow', rfl⟩⟩, rfl⟩
  | value literal op =>
    obtain ⟨u, hnull, he⟩ := bind_eq_ok_iff.mp he
    have htype := h.typeOfValue literal
    rcases hty : s.typeOfValue literal with _ | ty
    · rw [hty] at htype
      simp only [hty] at he
      cases he
      refine ⟨.orderedScan Estimate.valueCost s'.atomCount, bind_eq_ok_iff.mpr ⟨u, hnull, ?_⟩, rfl⟩
      simp only [htype]
      rfl
    · rw [hty] at htype
      simp only [hty] at he
      obtain ⟨e', he', hshape⟩ := h.exists_typedValue he
      exact ⟨e', bind_eq_ok_iff.mpr ⟨u, hnull, by simpa only [htype] using he'⟩, hshape⟩
  | typedValue ty literal op =>
    obtain ⟨u, hnull, he⟩ := bind_eq_ok_iff.mp he
    obtain ⟨id, hid, he⟩ := bind_eq_ok_iff.mp he
    obtain ⟨e', he', hshape⟩ := h.exists_typedValue he
    exact ⟨e', bind_eq_ok_iff.mpr ⟨u, hnull, bind_eq_ok_iff.mpr ⟨id, hresolve hid, he'⟩⟩, hshape⟩
  | targetOf id =>
    obtain ⟨link, hlink, he⟩ := bind_eq_ok_iff.mp he
    cases he
    exact ⟨_, bind_eq_ok_iff.mpr ⟨link, h.atom hlink, rfl⟩, rfl⟩
  | indexedPart ty path index literal op =>
    cases he
    exact ⟨_, rfl, shape_estimateIndexedPart index literal op⟩
  | link pattern | orderedLink pattern =>
    cases he
    exact ⟨_, rfl, shape_estimateLink pattern⟩
  | _ =>
    cases he
    exact ⟨_, rfl, rfl⟩

omit h hs hs' in
private theorem exists_estimates
    (ih : ∀ c ∈ cs, ∀ {e}, c.estimate ⟨s, catalog⟩ = .ok e → ∃ e', c.estimate ⟨s', catalog⟩ = .ok e' ∧ e'.shape = e.shape)
    (hes : estimates ⟨s, catalog⟩ cs = .ok es) :
    ∃ es', estimates ⟨s', catalog⟩ cs = .ok es' ∧ es'.map Estimate.shape = es.map Estimate.shape := by
  induction cs generalizing es with
  | nil =>
    cases hes
    exact ⟨[], rfl, rfl⟩
  | cons c cs ihcs =>
    obtain ⟨e, he, hes⟩ := bind_eq_ok_iff.mp hes
    obtain ⟨rest, hrest, hes⟩ := bind_eq_ok_iff.mp hes
    cases hes
    obtain ⟨e', he', hshape⟩ := ih c (by simp) he
    obtain ⟨rest', hrest', hshapes⟩ := ihcs (fun d hd => ih d (by simp [hd])) hrest
    exact ⟨e' :: rest', bind_eq_ok_iff.mpr ⟨e', he', bind_eq_ok_iff.mpr ⟨rest', hrest', rfl⟩⟩,
      by rw [List.map_cons, List.map_cons, hshape, hshapes]⟩

/-- A condition that can be estimated can still be after the store has grown, and only sizes are estimated differently. -/
theorem exists_estimate (he : c.estimate ⟨s, catalog⟩ = .ok e) :
    ∃ e', c.estimate ⟨s', catalog⟩ = .ok e' ∧ e'.shape = e.shape := by
  induction c using treeInduction generalizing e with
  | and cs ih =>
    obtain ⟨es, hes, he⟩ := bind_eq_ok_iff.mp he
    cases he
    obtain ⟨es', hes', hshapes⟩ := exists_estimates (fun c hc _ he => ih c hc he) hes
    exact ⟨_, bind_eq_ok_iff.mpr ⟨es', hes', rfl⟩, by rw [Estimate.shape_conjunction, hshapes, ← Estimate.shape_conjunction]⟩
  | or cs ih =>
    obtain ⟨es, hes, he⟩ := bind_eq_ok_iff.mp he
    cases he
    obtain ⟨es', hes', hshapes⟩ := exists_estimates (fun c hc _ he => ih c hc he) hes
    exact ⟨_, bind_eq_ok_iff.mpr ⟨es', hes', rfl⟩, by rw [Estimate.shape_disjunction, hshapes, ← Estimate.shape_disjunction]⟩
  | not operand ih =>
    obtain ⟨inner, hinner, htestable, rfl⟩ := estimate_not he
    obtain ⟨inner', hinner', hshape⟩ := ih hinner
    have htestable' : inner'.isPredicate = true := (Estimate.isPredicate_eq_of_shape hshape).trans htestable
    refine ⟨_, bind_eq_ok_iff.mpr ⟨inner', hinner', if_pos htestable'⟩, ?_⟩
    rw [Estimate.cost_eq_of_shape hshape]
    rfl
  | map operand mapping ih =>
    obtain ⟨inner, hinner, he⟩ := bind_eq_ok_iff.mp he
    cases he
    obtain ⟨inner', hinner', -⟩ := ih hinner
    exact ⟨_, bind_eq_ok_iff.mpr ⟨inner', hinner', rfl⟩, rfl⟩
  | leaf c hleaf =>
    rw [estimate_of_not_isCompound hleaf] at he ⊢
    exact h.exists_estimateLeaf hs hs' he

/-! ### Leaves -/

variable {config : PlannerConfig}

omit hs hs' in
private theorem typedValue (c : Condition) (ty : AtomId) (literal : Value) (op : Comparison) (cost : Double) :
    Planner.typedValue ⟨config, ⟨s', catalog⟩⟩ c ty literal op cost =
      Planner.typedValue ⟨config, ⟨s, catalog⟩⟩ c ty literal op cost := by
  simp only [Planner.typedValue, h.valueLookup]

/-- A leaf is planned as before. -/
theorem planLeaf (he : c.estimate ⟨s, catalog⟩ = .ok e) :
    Planner.planLeaf ⟨config, ⟨s', catalog⟩⟩ c = Planner.planLeaf ⟨config, ⟨s, catalog⟩⟩ c := by
  obtain ⟨e', he', hshape⟩ := h.exists_estimate hs hs' he
  have hcost : e'.cost = e.cost := Estimate.cost_eq_of_shape hshape
  have htestable : e'.isPredicate = e.isPredicate := Estimate.isPredicate_eq_of_shape hshape
  have hscan : ∀ cost, Planner.filteredFullScan ⟨config, ⟨s', catalog⟩⟩ c cost =
      Planner.filteredFullScan ⟨config, ⟨s, catalog⟩⟩ c cost := fun _ => rfl
  cases c with
  | nothing | any | incident id | targetOf id | walk w => rfl
  | subsumes id | subsumed id => rfl
  | ofType ty => simp only [Planner.planLeaf, h.resolve]
  | ofTypePlus ty => simp only [Planner.planLeaf, h.resolve, h.subtypes hs hs']
  | value literal op => simp only [Planner.planLeaf, he, he', hcost, hscan, h.typeOfValue, h.typedValue, bind, Except.bind]
  | typedValue ty literal op => simp only [Planner.planLeaf, he, he', hcost, h.resolve, h.typedValue, bind, Except.bind]
  | indexedPart ty path index literal op => simp only [Planner.planLeaf, he, he', hcost, bind, Except.bind]
  | link pattern | orderedLink pattern =>
    simp only [Planner.planLeaf, Planner.linkPattern, he, he', hcost, hscan, bind, Except.bind]
  | _ => simp only [Planner.planLeaf, he, he', hcost, htestable, hscan, bind, Except.bind]

end Store.Grows

/-! ### Conjunctions -/

namespace Conjunct

/-- The conjunct without estimated sizes. -/
def shaped (x : Conjunct) : Conjunct := { x with estimate := x.estimate.shape }

/-- If the conjunct can only be collected, so many results are expected of it. -/
def Level (n : Nat) (x : Conjunct) : Prop :=
  x.estimate.ordered = false → x.estimate.randomAccess = false → x.estimate.isPredicate = false → x.estimate.expected = n

theorem keepsFlags_shaped : KeepsFlags shaped := fun _ => ⟨rfl, rfl, rfl, rfl⟩

end Conjunct

namespace Buckets

variable {b : Buckets} {x : Conjunct} {xs : List Conjunct} {n : Nat}

/-- The buckets without estimated sizes. -/
def shaped (b : Buckets) : Buckets :=
  ⟨b.seekable.map .shaped, b.ordered.map .shaped, b.probed.map .shaped, b.tests.map .shaped, b.collected.map .shaped⟩

theorem shaped_foldl_add : (xs.foldl add b).shaped = (xs.map .shaped).foldl add b.shaped :=
  mapped_foldl_add Conjunct.keepsFlags_shaped

theorem shaped_settle : b.settle.shaped = b.shaped.settle := mapped_settle

private theorem level_add (h : ∀ y ∈ b.collected, y.estimate.expected = n) (hx : x.Level n) :
    ∀ y ∈ (b.add x).collected, y.estimate.expected = n := by
  simp only [add]
  split
  · exact h
  · split
    · exact h
    · split
      · exact h
      · rename_i ho
        split
        · exact h
        · rename_i hk
          split
          · exact h
          · rename_i htestable
            have hlast := hx (Bool.eq_false_iff.mpr ho) (Bool.eq_false_iff.mpr hk) (Bool.eq_false_iff.mpr htestable)
            exact List.forall_mem_append.mpr ⟨h, by simpa using hlast⟩

theorem level_foldl_add (h : ∀ y ∈ b.collected, y.estimate.expected = n) (hxs : ∀ x ∈ xs, x.Level n) :
    ∀ y ∈ (xs.foldl add b).collected, y.estimate.expected = n := by
  induction xs generalizing b with
  | nil => exact h
  | cons x xs ih => exact ih (level_add h (hxs x (by simp))) fun y hy => hxs y (by simp [hy])

theorem collected_settle : b.settle.collected = b.collected := by
  unfold settle
  split <;> rfl

end Buckets

namespace Planner

variable {p : Planner} {c : Condition} {b : Buckets} {xs : List Conjunct} {n : Nat}

theorem intersect_shaped (merge : Plan → Plan → Plan) (base : Option Plan) :
    intersect merge base (xs.map .shaped) = intersect merge base xs := by
  induction xs generalizing base with
  | nil => rfl
  | cons x xs ih => simp only [List.map_cons, intersect, Conjunct.shaped, ih]

theorem steps_shaped : steps b.shaped = steps b := by
  simp only [steps, Buckets.shaped, List.map_map, List.mapM_map, Function.comp_def, Conjunct.shaped]
  rfl

theorem chooseBase_shaped (h : ∀ y ∈ b.collected, y.estimate.expected = n) :
    p.chooseBase c b.shaped = (p.chooseBase c b).map fun (plan, rest) => (plan, rest.shaped) := by
  have hcollected : Conjunct.takeLeast Conjunct.expectsFewer (b.collected.map .shaped) =
      (Conjunct.takeLeast Conjunct.expectsFewer b.collected).map fun (x, rest) => (x.shaped, rest.map .shaped) :=
    Conjunct.takeLeast_map fun x hx y hy => by simp [Conjunct.expectsFewer, Conjunct.shaped, Estimate.shape, h x hx, h y hy]
  have hprobed : Conjunct.takeLeast Conjunct.testsCheaper (b.probed.map .shaped) =
      (Conjunct.takeLeast Conjunct.testsCheaper b.probed).map fun (x, rest) => (x.shaped, rest.map .shaped) :=
    Conjunct.takeLeast_map fun _ _ _ _ => rfl
  unfold chooseBase
  simp only [Buckets.shaped, hcollected, hprobed]
  rcases Conjunct.takeLeast Conjunct.expectsFewer b.collected with _ | ⟨least, others⟩
  · rcases Conjunct.takeLeast Conjunct.testsCheaper b.probed with _ | ⟨least, others⟩
    · rcases p.fullScan c with e | plan <;> rfl
    · obtain ⟨condition, estimate, plan⟩ := least
      cases plan <;> rfl
  · obtain ⟨condition, estimate, plan⟩ := least
    cases plan <;> rfl

/-- As long as the same is expected of all conjuncts that can only be collected, the plan of a conjunction does not depend
on estimated sizes. -/
theorem planConjunction_shaped (h : ∀ x ∈ xs, x.Level n) :
    p.planConjunction c (xs.map .shaped) = p.planConjunction c xs := by
  have hbuckets : ((xs.map .shaped).foldl Buckets.add .empty).settle = (xs.foldl Buckets.add .empty).settle.shaped := by
    rw [Buckets.shaped_settle, Buckets.shaped_foldl_add]
    rfl
  have hcollected : ∀ y ∈ (xs.foldl Buckets.add .empty).settle.collected, y.estimate.expected = n := by
    rw [Buckets.collected_settle]
    exact Buckets.level_foldl_add (by simp [Buckets.empty]) h
  unfold planConjunction
  rw [hbuckets]
  generalize (xs.foldl Buckets.add .empty).settle = b at hcollected
  have hzigZags : intersect .zigZag none b.shaped.seekable = intersect .zigZag none b.seekable := intersect_shaped _ _
  have hmerges : ∀ base, intersect .sortedMerge base b.shaped.ordered = intersect .sortedMerge base b.ordered :=
    fun base => intersect_shaped _ base
  simp only [hzigZags, hmerges, steps_shaped, chooseBase_shaped hcollected]
  refine bind_congr fun zigZags => bind_congr fun base => ?_
  cases base with
  | some base => rfl
  | none =>
    rcases p.chooseBase c b with e | ⟨base, rest⟩
    · rfl
    · show (do return Plan.filtered base (← steps rest.shaped)) = _
      rw [steps_shaped]
      rfl

/-- Conditions with their estimates and plans. -/
private def conjunctsOf (cs : List Condition) (es : List Estimate) (plans : List (Except QueryError Plan)) : List Conjunct :=
  (cs.zip (es.zip plans)).map fun (c, e, plan) => ⟨c, e, plan⟩

private theorem shaped_conjunctsOf (cs : List Condition) (es : List Estimate) (plans : List (Except QueryError Plan)) :
    (conjunctsOf cs es plans).map .shaped = conjunctsOf cs (es.map Estimate.shape) plans := by
  rw [conjunctsOf, conjunctsOf, List.zip_map_left, List.zip_map_right, List.map_map, List.map_map]
  rfl

end Planner

/-! ### Normal forms -/

namespace Condition

/-- The condition is not a mapping. -/
def Unmapped (c : Condition) : Prop := ∀ operand mapping, c ≠ .map operand mapping

/-- Of a leaf that can only be collected, half of all atoms are expected. -/
theorem expected_of_leaf {g : Graph} {c : Condition} {e : Estimate} (hleaf : c.isCombinator = false) (hmap : c.Unmapped)
    (he : c.estimate g = .ok e) (ho : e.ordered = false) (hk : e.randomAccess = false) (htestable : e.isPredicate = false) :
    e.expected = g.store.atomCount / 2 := by
  by_cases htest : c.isTest = true
  · rw [(shape_of_isTest htest he).1] at htestable
    simp at htestable
  · rcases hwalk : c.walkStart? with _ | id
    · have hcompound : c.isCompound = false := isCompound_of_not_isTest hleaf htest hmap
      have hdirect := (shape_of_constraint hcompound (Bool.eq_false_iff.mpr htest) hwalk he).1
      simp [ho, hk] at hdirect
    · cases c with
      | walk w | subsumes id | subsumed id =>
        cases he
        rfl
      | _ => simp [walkStart?] at hwalk

end Condition

namespace Store.Grows

open Condition (estimates ArmOf NormalFormOf Unmapped)

variable {s s' : Store} {catalog : Catalog} {config : PlannerConfig} {c : Condition} {cs : List Condition} {e : Estimate}
  {f f' : Condition → Except QueryError Plan}

private theorem plansWith_congr {p p' : Planner} (h : ∀ c ∈ cs, p'.planWith f' c = p.planWith f c) :
    p'.plansWith f' cs = p.plansWith f cs := by
  induction cs with
  | nil => rfl
  | cons c cs ih => rw [Planner.plansWith, Planner.plansWith, h c (by simp), ih fun d hd => h d (by simp [hd])]

/-- Whichever of the conjuncts can only be collected, the same is expected of all of them. -/
private theorem level_conjunctsOf (p : Planner) (f : Condition → Except QueryError Plan) {es : List Estimate}
    (hleaf : ∀ c ∈ cs, c.isCombinator = false) (hmap : ∀ c ∈ cs, c.Unmapped) (hes : estimates p.graph cs = .ok es) :
    ∀ x ∈ Planner.conjunctsOf cs es (p.plansWith f cs), x.Level (p.graph.store.atomCount / 2) :=
  (Planner.forall_mem_conjuncts hes fun c hc _ he => Condition.expected_of_leaf (hleaf c hc) (hmap c hc) he).1

variable (h : s.Grows s') (hs : s.Consistent) (hs' : s'.Consistent)

include h hs hs'

private theorem planWith_leaf (hleaf : c.isCombinator = false) (hmap : c.Unmapped) (he : c.estimate ⟨s, catalog⟩ = .ok e) :
    Planner.planWith ⟨config, ⟨s', catalog⟩⟩ f' c = Planner.planWith ⟨config, ⟨s, catalog⟩⟩ f c := by
  rw [Planner.planWith_of_leaf hleaf hmap, Planner.planWith_of_leaf hleaf hmap, h.planLeaf hs hs' he]

private theorem planWith_arm (harm : ArmOf Unmapped c) (he : c.estimate ⟨s, catalog⟩ = .ok e) :
    Planner.planWith ⟨config, ⟨s', catalog⟩⟩ f' c = Planner.planWith ⟨config, ⟨s, catalog⟩⟩ f c := by
  rcases Condition.isArm_cases harm.isArm with hleaf | ⟨cs, rfl, hleaf⟩
  · exact h.planWith_leaf hs hs' hleaf (harm.leaves c (by simp [Condition.leaves_of_not_isCombinator hleaf])) he
  · have hmap : ∀ c ∈ cs, c.Unmapped := Condition.leaves_and hleaf ▸ harm.leaves
    obtain ⟨es, hes, -⟩ := bind_eq_ok_iff.mp he
    obtain ⟨es', hes', hshapes⟩ := exists_estimates (fun c _ _ he => h.exists_estimate hs hs' he) hes
    have hplans : Planner.plansWith ⟨config, ⟨s', catalog⟩⟩ f' cs = Planner.plansWith ⟨config, ⟨s, catalog⟩⟩ f cs := by
      refine plansWith_congr fun c hc => ?_
      obtain ⟨d, -, hd⟩ := Condition.exists_estimate_of_mem hes hc
      exact h.planWith_leaf hs hs' (hleaf c hc) (hmap c hc) hd
    have hlevel := level_conjunctsOf ⟨config, ⟨s, catalog⟩⟩ f hleaf hmap hes
    have hlevel' := level_conjunctsOf ⟨config, ⟨s', catalog⟩⟩ f' hleaf hmap hes'
    rw [hplans] at hlevel'
    rw [Planner.planWith, Planner.planWith, hes, hes', hplans]
    calc Planner.planConjunction ⟨config, ⟨s', catalog⟩⟩ (.and cs) (Planner.conjunctsOf cs es' _)
        = Planner.planConjunction ⟨config, ⟨s', catalog⟩⟩ (.and cs) ((Planner.conjunctsOf cs es' _).map .shaped) :=
          (Planner.planConjunction_shaped hlevel').symm
      _ = Planner.planConjunction ⟨config, ⟨s, catalog⟩⟩ (.and cs) ((Planner.conjunctsOf cs es _).map .shaped) := by
          rw [Planner.shaped_conjunctsOf, Planner.shaped_conjunctsOf, hshapes]
          rfl
      _ = Planner.planConjunction ⟨config, ⟨s, catalog⟩⟩ (.and cs) (Planner.conjunctsOf cs es _) :=
          Planner.planConjunction_shaped hlevel

/-- A condition in disjunctive normal form without mappings is planned as before. -/
theorem planWith (hnormal : NormalFormOf Unmapped c) (he : c.estimate ⟨s, catalog⟩ = .ok e) :
    Planner.planWith ⟨config, ⟨s', catalog⟩⟩ f' c = Planner.planWith ⟨config, ⟨s, catalog⟩⟩ f c := by
  cases c with
  | or cs =>
    obtain ⟨es, hes, -⟩ := bind_eq_ok_iff.mp he
    rw [Planner.planWith, Planner.planWith, plansWith_congr fun c hc => ?_]
    obtain ⟨d, -, hd⟩ := Condition.exists_estimate_of_mem hes hc
    exact h.planWith_arm hs hs' (hnormal.arms c hc) hd
  | _ => exact h.planWith_arm hs hs' (hnormal.arms _ (List.mem_singleton_self _)) he

end Store.Grows

end HyperQuery
