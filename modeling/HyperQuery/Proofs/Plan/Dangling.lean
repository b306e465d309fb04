import HyperQuery.Proofs.Plan.Answers
import HyperQuery.Proofs.Plan.Success
import HyperQuery.Proofs.Store.Entries

/-!
# Plans that read handles of no stored atoms

Without mappings a plan reads handles of stored atoms, with one exception: a walk that includes its start finds the handle
it starts from, whether or not it is stored (`Condition.includedStart?`). Which handles of no stored atoms a plan reads is
therefore known exactly (`Plan.Dangles`). A conjunction reads one if all its conjuncts are walks that include it as their
start (`Planner.dangles_planConjunction`), and a condition in disjunctive normal form if one of its alternatives does
(`Planner.dangles_planWith`).
-/

namespace HyperQuery

variable {g : Graph}

namespace Condition

variable {c : Condition} {e : Estimate} {id : AtomId}

/-- The handle that the walk of a condition starts from, if it counts among the results. -/
def includedStart? : Condition → Option AtomId
  | .walk w => if w.includeStart then some w.start else none
  | .subsumes id => some id
  | .subsumed id => some id
  | _ => none

theorem includedStart?_eq_none (h : c.walkStart? = none) : c.includedStart? = none := by
  cases c <;> first | rfl | simp [walkStart?] at h

/-- Walks have no direct results, and they cannot be tested. -/
theorem walkStart?_eq_none (he : c.estimate g = .ok e)
    (h : (e.ordered = true ∨ e.randomAccess = true) ∨ e.isPredicate = true) : c.walkStart? = none := by
  rcases hwalk : c.walkStart? with _ | id
  · rfl
  · have hcost : e.isPredicate = false := by
      cases c with
      | walk w | subsumes id | subsumed id =>
        cases he
        exact Estimate.isNonnegative_notTestable
      | _ => simp [walkStart?] at hwalk
    rcases h with hdirect | htestable
    · exact absurd hdirect (shape_of_walk hwalk he).2.1.not_direct
    · simp [hcost] at htestable

/-- Apart from walks and mappings, and from reading every atom, leaves have results among stored atoms only. -/
theorem stored_of_results (hstore : g.store.Reachable) (hleaf : c.isCombinator = false)
    (hmap : ∀ operand mapping, c ≠ .map operand mapping) (hwalk : c.walkStart? = none) (hany : c ≠ .any)
    (h : c.Results g id) : ∃ a, g.store.atom? id = some a := by
  cases h with
  | any => exact absurd rfl hany
  | holds _ ha _ => exact ⟨_, ha⟩
  | walked _ _ => simp [walkStart?] at hwalk
  | subsumption hw _ _ => cases c <;> simp [subsumptionWalk?, walkStart?] at hw hwalk
  | indexed hid => exact hstore.stored_of_mem_matching hid
  | and _ | or _ _ => simp [isCombinator] at hleaf
  | map _ _ => exact absurd rfl (hmap _ _)

end Condition

namespace Plan

variable {plan base : Plan} {P Q : AtomId → Prop}

/-! ### Handles that dangle -/

/-- Of the handles that dangle, which are those of no stored atoms, the plan reads the ones with the property. -/
def Dangles (g : Graph) (plan : Plan) (P : AtomId → Prop) : Prop :=
  ∃ items ordered, plan.Reads g items ordered ∧ ∀ id, g.store.atom? id = none → (id ∈ items ↔ P id)

theorem Dangles.congr (h : plan.Dangles g P) (hPQ : ∀ id, g.store.atom? id = none → (P id ↔ Q id)) :
    plan.Dangles g Q := by
  obtain ⟨items, ordered, hreads, hitems⟩ := h
  exact ⟨items, ordered, hreads, fun id hid => (hitems id hid).trans (hPQ id hid)⟩

theorem not_stored_of_eq_none {id : AtomId} (hid : g.store.atom? id = none) : ¬ ∃ a, g.store.atom? id = some a := by
  simp [hid]

theorem ReadsOnly.dangles (h : plan.ReadsOnly g fun id => ∃ a, g.store.atom? id = some a) :
    plan.Dangles g fun _ => False := by
  obtain ⟨items, ordered, hreads, hitems⟩ := h
  refine ⟨items, ordered, hreads, fun id hid => iff_false_intro fun hmem => ?_⟩
  exact not_stored_of_eq_none hid (hitems id hmem)

theorem dangles_traversal (hstore : g.store.Consistent) (w : Walk) :
    (Plan.traversal w).Dangles g fun id => w.includeStart = true ∧ id = w.start := by
  obtain ⟨items, hlists, hitems⟩ := finds_traversal hstore w
  refine ⟨items, false, fun _ => hlists.reads, fun id hid => (hitems id).trans ?_⟩
  simp only [Walk.reach_iff_of_not_stored hstore hid]
  cases w.includeStart <;> simp +contextual

/-- The union of plans reads the dangling handles that one of them reads. -/
theorem dangles_unionAll {plans : List Plan} {Ps : List (AtomId → Prop)}
    (h : List.Forall₂ (fun plan P => plan.Dangles g P) plans Ps) :
    (Plan.unionAll plans).Dangles g fun id => ∃ P ∈ Ps, P id := by
  have hparts : ∃ parts, ReadEach g plans parts ∧
      ∀ id, g.store.atom? id = none → ((∃ part ∈ parts, id ∈ part) ↔ ∃ P ∈ Ps, P id) := by
    induction h with
    | nil => exact ⟨[], .nil, by simp⟩
    | cons hplan _ ih =>
      obtain ⟨items, ordered, hreads, hitems⟩ := hplan
      obtain ⟨parts, heach, hparts⟩ := ih
      refine ⟨items :: parts, .cons ⟨ordered, hreads⟩ heach, fun id hid => ?_⟩
      rw [List.exists_mem_cons_iff, List.exists_mem_cons_iff, hitems id hid, hparts id hid]
  obtain ⟨parts, heach, hparts⟩ := hparts
  obtain ⟨items, ordered, hreads, hmem, -⟩ := heach.unionAll
  exact ⟨items, ordered, hreads, fun id hid => (hmem id).trans (hparts id hid)⟩

end Plan

/-! ### Steps of filters -/

namespace FilterStep

variable {P Q : AtomId → Prop} {plan : Plan} {cost : Double}

/-- Of the handles that dangle, those with the property pass the tests of the steps, unless a test fails with an error that
reading may fail with. -/
def Sift (g : Graph) (steps : List FilterStep) (P : AtomId → Prop) : Prop :=
  ∃ property : AtomId → Bool, (∀ id, g.store.atom? id = none → (property id = true ↔ P id)) ∧
    ∀ limit, Check.Attempt g g.ReadError (checks limit steps) property

/-- The step tests a property of dangling handles in front of any other steps. -/
def Sifts (g : Graph) (step : FilterStep) (Q : AtomId → Prop) : Prop :=
  ∀ steps P, Sift g steps P → Sift g (step :: steps) fun id => Q id ∧ P id

theorem sift_nil : Sift g [] fun _ => True := ⟨fun _ => true, by simp, fun _ => Check.attempt_nil⟩

theorem Sift.congr {steps : List FilterStep} (h : Sift g steps P) (hPQ : ∀ id, P id ↔ Q id) : Sift g steps Q := by
  obtain ⟨property, hproperty, htests⟩ := h
  exact ⟨property, fun id hid => (hproperty id hid).trans (hPQ id), htests⟩

/-- A condition cannot be tested on a handle that dangles. -/
theorem sifts_predicate {c : Condition} (hany : c ≠ .any)
    (herror : ∀ id e, (c.satisfies g id).answer = .error e → g.ReadError e) :
    (predicate c cost).Sifts g fun _ => False := by
  rintro steps P ⟨property, hproperty, htests⟩
  refine ⟨_, fun id hid => ?_, fun limit => (htests limit).point herror⟩
  have hfails : ¬ Tester.passes (c.satisfies g) id = true := by
    rw [Tester.passes_iff]
    intro hpasses
    have hatom : g.store.atom id = .error (.missingAtom id) := by rw [Store.atom, hid]
    have hloaded : (do Condition.eval g (← g.store.atom id) c : Metered Bool).answer = .error (.missingAtom id) :=
      Metered.answer_bind_of_error hatom
    cases c with
    | any => exact hany rfl
    | nothing => simp [Condition.satisfies] at hpasses
    | _ => cases hloaded.symm.trans hpasses
  simp [hfails]

theorem sifts_membership (h : plan.ListsOnly g false true fun id => ∃ a, g.store.atom? id = some a) :
    (membership plan cost).Sifts g fun _ => False := by
  rintro steps P ⟨property, hproperty, htests⟩
  obtain ⟨items, hlists, hitems⟩ := h
  have hnone : ∀ id, g.store.atom? id = none → (id ∈ items ↔ False) := fun id hid =>
    iff_false_intro fun hmem => Plan.not_stored_of_eq_none hid (hitems id hmem)
  refine ⟨_, fun id hid => contains_and_iff (hnone id hid) (hproperty id hid), fun limit => ?_⟩
  exact (htests limit).member (hlists limit)

theorem sifts_materialized (h : plan.Dangles g Q) : (materialized plan).Sifts g Q := by
  rintro steps P ⟨property, hproperty, htests⟩
  obtain ⟨items, ordered, hreads, hitems⟩ := h
  refine ⟨_, fun id hid => contains_and_iff (hitems id hid) (hproperty id hid), fun limit => ?_⟩
  exact (htests limit).gather .oversized limit (hreads limit)

end FilterStep

/-- The steps of a filter test what the base reads. -/
theorem Plan.Dangles.filtered {base : Plan} {steps : List FilterStep} {P Q : AtomId → Prop} (hbase : base.Dangles g P)
    (hsteps : FilterStep.Sift g steps Q) : (Plan.filtered base steps).Dangles g fun id => P id ∧ Q id := by
  obtain ⟨items, ordered, hreads, hitems⟩ := hbase
  obtain ⟨property, hproperty, htests⟩ := hsteps
  refine ⟨_, ordered, hreads.filtered htests, fun id hid => ?_⟩
  rw [List.mem_filter, hitems id hid, hproperty id hid]

namespace Planner

open Condition (Conforming)

variable {p : Planner} {f : Condition → Except QueryError Plan} {c : Condition} {cs : List Condition} {e : Estimate}
  {plan : Plan}

/-! ### Leaves -/

/-- Direct results are stored. -/
theorem listsOnly_planLeaf (hstore : p.graph.store.Reachable) (hleaf : c.isCompound = false) (hconforming : c.Conforming)
    (he : c.estimate p.graph = .ok e) (hdirect : e.ordered = true ∨ e.randomAccess = true)
    (h : p.planLeaf c = .ok plan) : ∃ ordered seekable,
      plan.ListsOnly p.graph ordered seekable (fun id => ∃ a, p.graph.store.atom? id = some a) ∧
        e.Fits ordered seekable := by
  have hconsistent := hstore.consistent.1
  by_cases hany : c = .any
  · subst hany
    cases he
    exact ⟨true, true, listsOnly_fullScan hconsistent h, Estimate.fits_sorted (.inl rfl)⟩
  · obtain ⟨items, ordered, seekable, hlists⟩ := listsFor_planLeaf hconsistent hleaf hconforming he hdirect h
    refine ⟨ordered, seekable, ⟨items, hlists.lists, fun id hid => ?_⟩, hlists.fits⟩
    have hmap : ∀ operand mapping, c ≠ .map operand mapping := by
      rintro operand mapping rfl
      simp [Condition.isCompound] at hleaf
    exact Condition.stored_of_results hstore (Condition.isCombinator_of_not_isCompound hleaf) hmap
      (Condition.walkStart?_eq_none he (.inl hdirect)) hany (hlists.results id hid)

/-- The plan of a leaf other than a mapping reads a dangling handle only if it is the start of a walk. -/
theorem dangles_planLeaf (hstore : p.graph.store.Reachable) (hleaf : c.isCombinator = false)
    (hmap : ∀ operand mapping, c ≠ .map operand mapping) (hconforming : c.Conforming) (h : p.planLeaf c = .ok plan) :
    plan.Dangles p.graph fun id => c.includedStart? = some id := by
  have hconsistent := hstore.consistent.1
  rcases hwalk : c.walkStart? with _ | start
  · have hstored : plan.ReadsOnly p.graph fun id => ∃ a, p.graph.store.atom? id = some a := by
      by_cases hany : c = .any
      · subst hany
        exact (listsOnly_fullScan hconsistent h).readsOnly
      · obtain ⟨items, hanswers⟩ := answers_planLeaf hconsistent hleaf hmap hconforming h
        exact hanswers.readsOnly.mono fun id => Condition.stored_of_results hstore hleaf hmap hwalk hany
    exact hstored.dangles.congr fun id _ => by simp [Condition.includedStart?_eq_none hwalk]
  · cases c with
    | walk w =>
      cases h
      refine (Plan.dangles_traversal hconsistent w).congr fun id _ => ?_
      rw [Condition.includedStart?, Option.ite_none_right_eq_some, Option.some.injEq, eq_comm (a := id)]
    | subsumes id | subsumed id =>
      cases h
      refine (Plan.dangles_traversal hconsistent _).congr fun id _ => ?_
      rw [Condition.includedStart?, Option.some.injEq, eq_comm (a := id)]
      simp
    | _ => simp [Condition.walkStart?] at hwalk

end Planner

/-! ### Conjunctions -/

/-- The conjunct is a leaf with its estimate. Its plan lists stored atoms in the way the estimate says, if it has direct
results, and in any case reads no dangling handle but the start of a walk. -/
structure Conjunct.Grounded (g : Graph) (x : Conjunct) : Prop where
  isLeaf : x.condition.isCombinator = false
  estimate : x.condition.estimate g = .ok x.estimate
  lists : x.estimate.ordered = true ∨ x.estimate.randomAccess = true → ∀ plan, x.plan = .ok plan →
    ∃ ordered seekable, plan.ListsOnly g ordered seekable (fun id => ∃ a, g.store.atom? id = some a) ∧
      x.estimate.Fits ordered seekable
  dangles : ∀ plan, x.plan = .ok plan → plan.Dangles g fun id => x.condition.includedStart? = some id

namespace Conjunct.Grounded

variable {x : Conjunct}

theorem includedStart?_of_direct (h : x.Grounded g) (hdirect : x.estimate.ordered = true ∨ x.estimate.randomAccess = true) :
    x.condition.includedStart? = none :=
  Condition.includedStart?_eq_none (Condition.walkStart?_eq_none h.estimate (.inl hdirect))

theorem includedStart?_of_isPredicate (h : x.Grounded g) (htestable : x.estimate.isPredicate = true) :
    x.condition.includedStart? = none :=
  Condition.includedStart?_eq_none (Condition.walkStart?_eq_none h.estimate (.inr htestable))

end Conjunct.Grounded

namespace Planner

open Condition (Conforming ArmOf NormalFormOf)

variable {p : Planner} {f : Condition → Except QueryError Plan} {c : Condition} {e : Estimate} {b : Buckets}
  {xs : List Conjunct} {plan : Plan}

/-- The steps let through the dangling handles that are starts of the conjuncts left for the filter. -/
private theorem sift_steps {ss : List FilterStep} (hstore : g.store.Consistent) (hb : b.Sound)
    (hgrounded : ∀ x ∈ b.tested, x.Grounded g) (h : steps b = .ok ss) :
    FilterStep.Sift g ss fun id => ∀ x ∈ b.tested, x.condition.includedStart? = some id := by
  have hnone : ∀ {step : FilterStep} {c : Condition}, c.includedStart? = none → step.Sifts g (fun _ => False) →
      step.Sifts g fun id => c.includedStart? = some id := by
    intro step c hstart hstep
    simpa [hstart] using hstep
  have htests : ∀ x ∈ b.tests,
      (FilterStep.predicate x.condition x.testCost).Sifts g fun id => x.condition.includedStart? = some id := by
    intro x hx
    have hx' := hgrounded x (by simp [Buckets.tested, hx])
    have htestable := isPredicate_of_tests hb hx hx'.isLeaf hx'.estimate
    refine hnone (hx'.includedStart?_of_isPredicate htestable) (FilterStep.sifts_predicate (fun hany => ?_)
      fun _ _ => Condition.readError_of_satisfies hstore hx'.estimate htestable)
    -- what every atom matches is read in order, and so it is never a mere test
    have hestimate := hx'.estimate
    rw [hany] at hestimate
    have hindirect := hb.indirect x (List.mem_append_left _ hx)
    rw [← Except.ok.inj hestimate] at hindirect
    simp [Estimate.exact, Estimate.seekable] at hindirect
  have hprobed : ∀ x ∈ b.probed, ∀ plan, x.plan = .ok plan →
      (FilterStep.membership plan x.testCost).Sifts g fun id => x.condition.includedStart? = some id := by
    intro x hx plan hplan
    have hx' := hgrounded x (by simp [Buckets.tested, hx])
    obtain ⟨ho, hk⟩ := hb.probed x hx
    obtain ⟨o, k, hlists, hfits⟩ := hx'.lists (.inr hk) plan hplan
    obtain ⟨rfl, rfl⟩ := hfits.probed ho hk
    exact hnone (hx'.includedStart?_of_direct (.inr hk)) (FilterStep.sifts_membership hlists)
  have hcollected : ∀ x ∈ b.collected, ∀ plan, x.plan = .ok plan →
      (FilterStep.materialized plan).Sifts g fun id => x.condition.includedStart? = some id := fun x hx plan hplan =>
    FilterStep.sifts_materialized ((hgrounded x (by simp [Buckets.tested, hx])).dangles plan hplan)
  obtain ⟨ds, hall, hperm⟩ := forall₂_steps
    (T := fun step c => step.Sifts g fun id => c.includedStart? = some id) htests hprobed hcollected h
  have hsift : FilterStep.Sift g ss fun id => ∀ d ∈ ds, d.includedStart? = some id := by
    clear h hperm
    induction hall with
    | nil => exact FilterStep.sift_nil.congr fun id => by simp
    | cons hstep _ ih => exact (hstep _ _ ih).congr fun id => by simp
  exact hsift.congr fun id => by simp only [hperm.mem_iff, List.forall_mem_map]

/-- What is intersected from ordered conjuncts is stored. -/
private theorem covers_stored {zigZags base : Option Plan} (hb : b.Sound) (hgrounded : ∀ x ∈ b.all, x.Grounded g)
    (hzigZags : intersect .zigZag none b.seekable = .ok zigZags)
    (hbase : intersect .sortedMerge zigZags b.ordered = .ok base) :
    Covers (fun plan P => ∃ k, plan.ListsOnly g true k P) (fun _ id => ∃ a, g.store.atom? id = some a) base
      ((b.seekable ++ b.ordered).map Conjunct.condition) :=
  covers_listsOnly (S := fun _ id => ∃ a, g.store.atom? id = some a) (fun _ => rfl) (fun _ _ => by simp) hb
    (fun x hx => (hgrounded x hx).lists) hzigZags hbase

/-- Of the dangling handles the plan of a conjunction reads those that are starts of all its conjuncts. -/
theorem dangles_planConjunction (hstore : p.graph.store.Consistent) (hne : xs ≠ [])
    (hgrounded : ∀ x ∈ xs, x.Grounded p.graph) (h : p.planConjunction c xs = .ok plan) :
    plan.Dangles p.graph fun id => ∀ x ∈ xs, x.condition.includedStart? = some id := by
  obtain ⟨b, zigZags, base?, hb, -, hall, hzigZags, hbase?, base, rest, ss, hchoice, hss, rfl⟩ :=
    stages_of_planConjunction h
  have hgrounded' : ∀ x ∈ b.all, x.Grounded p.graph := fun x hx => hgrounded x (hall.mem_iff.mp hx)
  have hcovers := covers_stored hb hgrounded' hzigZags hbase?
  -- one conjunct without such a start is enough
  have hfalse : ∀ x ∈ xs, x.condition.includedStart? = none →
      ∀ id, ¬ ∀ x ∈ xs, x.condition.includedStart? = some id := by
    intro x hx hnone id hstarts
    simpa [hnone] using hstarts x hx
  have hparts : ∃ P : AtomId → Prop, base.Dangles p.graph P ∧ rest.Sound ∧ (∀ x ∈ rest.tested, x ∈ xs) ∧
      ∀ id, (P id ∧ ∀ x ∈ rest.tested, x.condition.includedStart? = some id) ↔
        ∀ x ∈ xs, x.condition.includedStart? = some id := by
    rcases hchoice with ⟨rfl, rfl⟩ | ⟨rfl, hchoice⟩
    · obtain ⟨k, hbase⟩ : ∃ k, base.ListsOnly p.graph true k _ := hcovers
      have hsome : rest.seekable ++ rest.ordered ≠ [] := by
        intro hnil
        obtain ⟨hseekable, hordered⟩ := List.append_eq_nil_iff.mp hnil
        have hzigZags := (intersect_isNone hzigZags).mpr ⟨rfl, hseekable⟩
        exact nomatch (intersect_isNone hbase?).mpr ⟨hzigZags, hordered⟩
      obtain ⟨x, hx⟩ := List.exists_mem_of_ne_nil _ hsome
      have ho : x.estimate.ordered = true :=
        (List.mem_append.mp hx).elim (fun hx => (hb.seekable x hx).1) (hb.ordered x)
      have hx : x ∈ xs := hall.mem_iff.mp (List.mem_append_left _ hx)
      exact ⟨_, hbase.readsOnly.dangles, hb, fun y hy => hall.mem_iff.mp (List.mem_append_right _ hy),
        fun id => iff_of_false (fun hid => hid.1) (hfalse x hx ((hgrounded x hx).includedStart?_of_direct (.inl ho)) id)⟩
    · have hnone : (b.seekable ++ b.ordered).map Conjunct.condition = [] := hcovers
      rw [Buckets.all, List.map_eq_nil_iff.mp hnone, List.nil_append] at hall
      rcases chooseBase_cases hb hchoice with ⟨x, hplan, hrest, hperm⟩ | ⟨hscan, rfl, hprobed, hcollected⟩
      · have hperm := hperm.symm.trans hall
        refine ⟨_, (hgrounded x (hperm.mem_iff.mp List.mem_cons_self)).dangles base hplan, hrest,
          fun y hy => hperm.mem_iff.mp (List.mem_cons_of_mem x hy), fun id => ?_⟩
        simp only [← hperm.mem_iff, List.forall_mem_cons]
      · -- without sets there are only tests
        obtain ⟨x, hx⟩ := List.exists_mem_of_ne_nil xs hne
        have htests : x ∈ rest.tests := by simpa [Buckets.tested, hprobed, hcollected] using hall.mem_iff.mpr hx
        have htestable := isPredicate_of_tests hb htests (hgrounded x hx).isLeaf (hgrounded x hx).estimate
        have hnone := (hgrounded x hx).includedStart?_of_isPredicate htestable
        exact ⟨_, (listsOnly_fullScan hstore hscan).readsOnly.dangles, hb, fun y hy => hall.mem_iff.mp hy,
          fun id => iff_of_false (fun hid => hid.1) (hfalse x hx hnone id)⟩
  obtain ⟨P, hbase, hrest, hmem, hiff⟩ := hparts
  have hsift := sift_steps hstore hrest (fun x hx => hgrounded x (hmem x hx)) hss
  exact (hbase.filtered hsift).congr fun id _ => hiff id

/-! ### Normal forms -/

theorem grounded_conjunct (hstore : p.graph.store.Reachable) (hleaf : c.isCombinator = false)
    (hmap : ∀ operand mapping, c ≠ .map operand mapping) (hconforming : c.Conforming) (he : c.estimate p.graph = .ok e) :
    Conjunct.Grounded p.graph ⟨c, e, p.planWith f c⟩ := by
  refine ⟨hleaf, he, fun hdirect plan hplan => ?_, fun plan hplan => ?_⟩
  · rw [planWith_of_leaf hleaf hmap] at hplan
    exact listsOnly_planLeaf hstore (Condition.isCompound_of_direct hleaf ⟨e, he, hdirect⟩) hconforming he hdirect hplan
  · rw [planWith_of_leaf hleaf hmap] at hplan
    exact dangles_planLeaf hstore hleaf hmap hconforming hplan

private theorem dangles_planWith_arm (hstore : p.graph.store.Reachable) (harm : ArmOf Conforming c)
    (hmap : ∀ operand mapping, .map operand mapping ∉ c.leaves) (h : p.planWith f c = .ok plan) :
    plan.Dangles p.graph fun id => ∀ l ∈ c.leaves, l.includedStart? = some id := by
  have hleafMap : ∀ l ∈ c.leaves, ∀ operand mapping, l ≠ .map operand mapping := by
    rintro _ hl operand mapping rfl
    exact hmap operand mapping hl
  rcases Condition.isArm_cases harm.isArm with hleaf | ⟨cs, rfl, hleaf⟩
  · have hleaves := Condition.leaves_of_not_isCombinator hleaf
    have hmem : c ∈ c.leaves := by simp [hleaves]
    rw [planWith_of_leaf hleaf (hleafMap c hmem)] at h
    refine (dangles_planLeaf hstore hleaf (hleafMap c hmem) (harm.leaves c hmem) h).congr fun id _ => ?_
    simp [hleaves]
  · have hleaves : (Condition.and cs).leaves = cs := Condition.leaves_and hleaf
    have hne : cs ≠ [] := by
      rintro rfl
      simpa using harm.several [] rfl
    rw [hleaves] at hleafMap
    have hconforming : ∀ l ∈ cs, l.Conforming := hleaves ▸ harm.leaves
    rw [planWith] at h
    obtain ⟨es, hes, h⟩ := bind_eq_ok_iff.mp h
    obtain ⟨hgrounded, hconditions⟩ := forall_mem_conjuncts hes fun c hc e he =>
      grounded_conjunct (f := f) hstore (hleaf c hc) (hleafMap c hc) (hconforming c hc) he
    refine (dangles_planConjunction hstore.consistent.1 (fun hnil => ?_) hgrounded h).congr fun id _ => ?_
    · rw [hnil] at hconditions
      exact hne hconditions.symm
    · refine (List.forall_mem_map (P := fun l : Condition => l.includedStart? = some id)).symm.trans ?_
      rw [hconditions, hleaves]

/-- Of the dangling handles the plan of a condition in disjunctive normal form without mappings reads those that are starts
of all leaves of an alternative. -/
theorem dangles_planWith (hstore : p.graph.store.Reachable) (hnormal : NormalFormOf Conforming c)
    (hmap : ∀ operand mapping, .map operand mapping ∉ c.leaves) (h : p.planWith f c = .ok plan) :
    plan.Dangles p.graph fun id => ∃ d ∈ c.alternatives, ∀ l ∈ d.leaves, l.includedStart? = some id := by
  cases c with
  | or cs =>
    rw [planWith] at h
    obtain ⟨plans, hplans, h⟩ := bind_eq_ok_iff.mp h
    cases h
    have heach : List.Forall₂ (fun plan P => plan.Dangles p.graph P) plans
        (cs.map fun d id => ∀ l ∈ d.leaves, l.includedStart? = some id) := by
      rw [List.forall₂_map_right_iff]
      refine forall₂_plansWith (fun d hd plan hplan => ?_) hplans
      exact dangles_planWith_arm hstore (hnormal.arms d hd)
        (fun operand mapping hmem => hmap operand mapping (Condition.mem_leavesOf.mpr ⟨d, hd, hmem⟩)) hplan
    exact (Plan.dangles_unionAll heach).congr fun id _ => by simp [Condition.alternatives]
  | _ =>
    exact (dangles_planWith_arm hstore (hnormal.arms _ (List.mem_singleton_self _)) hmap h).congr fun id _ => by
      simp [Condition.alternatives]

end Planner

end HyperQuery
