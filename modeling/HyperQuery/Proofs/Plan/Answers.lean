import HyperQuery.Proofs.Plan.Conjunction
import HyperQuery.Proofs.Plan.LeafPlans
import HyperQuery.Proofs.Plan.Prepare
import HyperQuery.Proofs.Plan.Reading

/-!
# Plans of leaves and conjunctions answer them

A plan answers a condition with items (`Plan.Answers`) if it reads these items and they are results of the condition. The
plans of leaves (`answers_planLeaf`) and conjunctions (`readsOnly_planConjunction`) do that, whichever functions users
supply and wherever walks start.

No result is promised in general. But the matches of a constraint whose results come in order or can be sought
(`Condition.Listable`) are all among the items.
-/

namespace HyperQuery

namespace Condition

/-- The indexes that the condition names for the parts of a type, at any depth, are of a kind. -/
def Names (K : AtomId → String → IndexHandle → Prop) (c : Condition) : Prop :=
  ∀ ty path index literal op, .indexedPart ty path index literal op ∈ c.constraints → K ty path index

/-- The indexes that the condition names, at any depth, do what they say about themselves. -/
def Conforming (c : Condition) : Prop := c.Names fun _ _ index => index.Conforms

/-- The matches of the condition can be listed: it is a constraint with direct results, and the index that it may name
is the registered one. -/
structure Listable (g : Graph) (c : Condition) : Prop where
  isConstraint : c.isCompound = false
  registered : Registered g.store [c]
  direct : c.Direct g

variable {g : Graph} {c : Condition} {e : Estimate}

theorem alternatives_of_not_isCombinator (h : c.isCombinator = false) : c.alternatives = [c] := by
  cases c with
  | or cs => simp [isCombinator] at h
  | _ => rfl

end Condition

open Condition (Direct Conforming Listable Matches Registered)

/-- The plan answers the condition with the items: it reads them, they are results of the condition, and the matches of
an alternative whose matches can be listed are all among them, each once. -/
structure Plan.Answers (g : Graph) (plan : Plan) (c : Condition) (items : List AtomId) : Prop where
  reads : ∃ ordered, plan.Reads g items ordered
  results : ∀ id ∈ items, c.Results g id
  listed : ∀ d ∈ c.alternatives, d.Listable g → (∀ id, d.Matches g id → id ∈ items) ∧ items.Nodup

/-- Whatever the limit on collected sets, the plan lists the items, in the way the estimate says. They are results of the
condition, and all its matches if its index is registered. -/
structure Plan.ListsFor (g : Graph) (plan : Plan) (e : Estimate) (c : Condition) (items : List AtomId)
    (ordered seekable : Bool) : Prop where
  lists : ∀ limit, (plan.blueprint limit).Lists g items ordered seekable
  fits : e.Fits ordered seekable
  results : ∀ id ∈ items, c.Results g id
  all : Registered g.store [c] → ∀ id, c.Matches g id → id ∈ items

theorem Plan.Answers.readsOnly {g : Graph} {plan : Plan} {c : Condition} {items : List AtomId}
    (h : plan.Answers g c items) : plan.ReadsOnly g (c.Results g) := by
  obtain ⟨ordered, hreads⟩ := h.reads
  exact ⟨items, ordered, hreads, h.results⟩

theorem Plan.ReadsOnly.answers {g : Graph} {plan : Plan} {c : Condition} (h : plan.ReadsOnly g (c.Results g))
    (hnone : ∀ d ∈ c.alternatives, ¬ d.Listable g) : ∃ items, plan.Answers g c items := by
  obtain ⟨items, ordered, hreads, hitems⟩ := h
  exact ⟨items, ⟨ordered, hreads⟩, hitems, fun d hd hlistable => absurd hlistable (hnone d hd)⟩

namespace Planner

variable {p : Planner} {f : Condition → Except QueryError Plan} {c : Condition} {cs : List Condition} {e : Estimate}
  {plan : Plan}

/-! ### Leaves -/

theorem unlimited_fullScan (h : p.fullScan c = .ok plan) : plan.Unlimited := by
  rw [eq_of_fullScan h]
  exact fun _ => rfl

private theorem unlimited_of_isSet (hset : plan.isSet = true) : plan.Unlimited := by
  obtain ⟨r, -, hr⟩ := Plan.exists_reading_of_isSet hset
  exact fun limit => (hr limit).trans (hr none).symm

private theorem unlimited_incidences {id : AtomId} {ids : List AtomId} : (Plan.incidences id ids).Unlimited := by
  refine Plan.incidences_induction (motive := Plan.Unlimited) (fun _ _ => rfl) (fun plan id hplan limit => ?_) id ids
  show Blueprint.zigZag (plan.blueprint limit) _ = Blueprint.zigZag (plan.blueprint none) _
  rw [hplan limit]
  rfl

/-- No set is collected to answer a leaf. -/
theorem unlimited_planLeaf (h : p.planLeaf c = .ok plan) : plan.Unlimited := by
  cases plannedAs_of_planLeaf h with
  | set hset => exact unlimited_of_isSet hset
  | walk => exact fun _ => rfl
  | types ids => exact Plan.unlimited_unionAll_typeScan
  | test hbase => exact (unlimited_of_isSet hbase).filtered
  | links => exact unlimited_incidences.filtered

/-- What is found, if it is served without a limit, is listed. -/
private theorem exists_listsFor {P : AtomId → Prop} (hunlimited : plan.Unlimited) (h : plan.Serves p.graph e P)
    (hresults : ∀ id, P id → c.Results p.graph id)
    (hmatches : Registered p.graph.store [c] → ∀ id, c.Matches p.graph id → P id) :
    ∃ items ordered seekable, plan.ListsFor p.graph e c items ordered seekable := by
  obtain ⟨o, k, ⟨items, hlists, hitems⟩, hfits⟩ := h
  refine ⟨items, o, k, fun limit => ?_, hfits, fun id hid => hresults id ((hitems id).mp hid),
    fun hregistered id hid => (hitems id).mpr (hmatches hregistered id hid)⟩
  rw [hunlimited limit]
  exact hlists

/-- The plan of a constraint with direct results lists results of it. -/
theorem listsFor_planLeaf (hstore : p.graph.store.Consistent) (hleaf : c.isCompound = false) (hconforming : c.Conforming)
    (he : c.estimate p.graph = .ok e) (hdirect : e.ordered = true ∨ e.randomAccess = true)
    (h : p.planLeaf c = .ok plan) : ∃ items ordered seekable, plan.ListsFor p.graph e c items ordered seekable := by
  have hcombinator := Condition.isCombinator_of_not_isCompound hleaf
  have hunlimited := unlimited_planLeaf h
  have hmatches : ∀ id, c.Matches p.graph id → c.Results p.graph id := fun _ => Condition.results_of_matches hcombinator
  by_cases hindexed : ∃ ty path index literal op, c = .indexedPart ty path index literal op
  · obtain ⟨ty, path, index, literal, op, rfl⟩ := hindexed
    cases he
    have hindex : index.Conforms := hconforming ty path index literal op (List.mem_singleton_self _)
    rcases serves_indexedPart hstore hindex h with hserves | hserves
    · refine exists_listsFor hunlimited hserves (fun id hid => .indexed hid) fun hregistered id hid => ?_
      have hindex := hregistered ty path index literal op (List.mem_singleton_self _)
      exact (mem_matching_iff_matches hstore hindex).mpr hid
    · exact exists_listsFor hunlimited hserves hmatches fun _ _ hid => hid
  · have hplannable : c.Plannable p.graph := by
      refine ⟨fun id a ha => ?_, fun id hid => ?_, fun ty path index literal op hc => ?_, fun operand mapping hc => ?_⟩
      · refine Condition.decided_of_estimate hstore hleaf (fun number hc => ?_) he
        subst hc
        exact (Condition.shape_of_isTest rfl he).2.not_direct hdirect
      · exact absurd hdirect (Condition.shape_of_walk hid he).2.1.not_direct
      · exact absurd ⟨ty, path, index, literal, op, hc⟩ hindexed
      · subst hc
        simp [Condition.isCompound] at hleaf
    exact exists_listsFor hunlimited (serves_leaf hstore hplannable hcombinator he h) hmatches fun _ _ hid => hid

/-- A walk is planned as a traversal. -/
private theorem readsOnly_walk {id : AtomId} (hstore : p.graph.store.Consistent) (hwalk : c.walkStart? = some id)
    (h : p.planLeaf c = .ok plan) : plan.ReadsOnly p.graph (c.Results p.graph) := by
  have htraversal : ∀ w : Walk, (∀ id, Reach (w.next p.graph.store) w.start id →
      (w.includeStart = false → id ≠ w.start) → c.Results p.graph id) →
      (Plan.traversal w).ReadsOnly p.graph (c.Results p.graph) := by
    intro w hw
    obtain ⟨items, hlists, hitems⟩ := Plan.finds_traversal hstore w
    refine ⟨items, false, fun _ => hlists.reads, fun id hid => ?_⟩
    obtain ⟨hreach, hstart⟩ := (hitems id).mp hid
    exact hw id hreach hstart
  cases c with
  | walk w =>
    cases h
    exact htraversal w fun id => .walked
  | subsumes specific | subsumed general =>
    cases h
    exact htraversal _ fun id => .subsumption rfl
  | _ => simp [Condition.walkStart?] at hwalk

/-- All atoms are stored. -/
theorem listsOnly_fullScan (hstore : p.graph.store.Consistent) (h : p.fullScan c = .ok plan) :
    plan.ListsOnly p.graph true true fun id => ∃ a, p.graph.store.atom? id = some a := by
  obtain ⟨items, hlists, hitems⟩ := finds_fullScan_of_ok hstore h
  refine ⟨items, fun limit => ?_, fun id hid => (hitems id).mp hid⟩
  rw [unlimited_fullScan h limit]
  exact hlists

private theorem readsOnly_filteredFullScan (hstore : p.graph.store.Consistent) (hleaf : c.isCombinator = false)
    (he : c.estimate p.graph = .ok e) (htestable : e.isPredicate = true) {cost : Double}
    (h : p.filteredFullScan c cost = .ok plan) : plan.ReadsOnly p.graph (c.Results p.graph) := by
  obtain ⟨base, hbase, h⟩ := bind_eq_ok_iff.mp h
  cases h
  have htest : (FilterStep.predicate c cost).NarrowsTo p.graph (c.Results p.graph) :=
    FilterStep.narrowsTo_predicate (fun _ _ => Condition.readError_of_satisfies hstore he htestable)
      fun _ => Condition.results_of_satisfies hleaf
  have hreads := (listsOnly_fullScan hstore hbase).readsOnly
  exact (hreads.filtered (htest _ _ FilterStep.narrow_nil)).mono fun id hid => hid.2.1

/-- A test is planned as a filter of all atoms. -/
private theorem readsOnly_test (hstore : p.graph.store.Consistent) (htest : c.isTest = true)
    (h : p.planLeaf c = .ok plan) : plan.ReadsOnly p.graph (c.Results p.graph) := by
  cases c with
  | part path literal op | predicate number | not operand =>
    obtain ⟨e, he, h⟩ := bind_eq_ok_iff.mp h
    split at h
    · rename_i htestable
      exact readsOnly_filteredFullScan hstore rfl he htestable h
    · simp at h
  | _ => simp [Condition.isTest] at htest

/-- What planning leaves unestimated can be estimated, but for the targets of a link that is not stored. -/
private theorem estimate_of_planLeaf (hleaf : c.isCompound = false) (htest : c.isTest = false)
    (hwalk : c.walkStart? = none) (h : p.planLeaf c = .ok plan) :
    (∃ e, c.estimate p.graph = .ok e) ∨ ∃ id e, c = .targetOf id ∧ p.graph.store.atom id = .error e := by
  cases c with
  | any | nothing | incident id => exact .inl ⟨_, rfl⟩
  | indexedPart ty path index literal op => exact .inl ⟨_, rfl⟩
  | link pattern | orderedLink pattern => exact .inl ⟨_, rfl⟩
  | ofType ty =>
    obtain ⟨id, hid, -⟩ := bind_eq_ok_iff.mp h
    exact .inl ⟨_, bind_eq_ok_iff.mpr ⟨id, hid, rfl⟩⟩
  | ofTypePlus ty =>
    obtain ⟨id, hid, h⟩ := bind_eq_ok_iff.mp h
    obtain ⟨below, hbelow, -⟩ := bind_eq_ok_iff.mp h
    exact .inl ⟨_, bind_eq_ok_iff.mpr ⟨id, hid, bind_eq_ok_iff.mpr ⟨below, hbelow, rfl⟩⟩⟩
  | value literal op | typedValue ty literal op =>
    obtain ⟨e, he, -⟩ := bind_eq_ok_iff.mp h
    exact .inl ⟨e, he⟩
  | targetOf id =>
    rcases hlink : p.graph.store.atom id with error | link
    · exact .inr ⟨id, error, rfl, hlink⟩
    · exact .inl ⟨_, bind_eq_ok_iff.mpr ⟨link, hlink, rfl⟩⟩
  | part path literal op => simp [Condition.isTest] at htest
  | predicate number => simp [Condition.isTest] at htest
  | subsumes id | subsumed id => simp [Condition.walkStart?] at hwalk
  | walk w => simp [Condition.walkStart?] at hwalk
  | and cs | or cs => simp [Condition.isCompound] at hleaf
  | not operand => simp [Condition.isCompound] at hleaf
  | map operand mapping => simp [Condition.isCompound] at hleaf

private theorem not_listable (hleaf : c.isCombinator = false) (h : ¬ c.Direct p.graph) :
    ∀ d ∈ c.alternatives, ¬ d.Listable p.graph := by
  intro d hd hlistable
  rw [Condition.alternatives_of_not_isCombinator hleaf, List.mem_singleton] at hd
  exact h (hd ▸ hlistable.direct)

/-- Nothing is read of a link that is not stored. -/
private theorem readsOnly_targetSet {id : AtomId} {error : QueryError} (hlink : p.graph.store.atom id = .error error)
    (P : AtomId → Prop) : (Plan.targetSet id).ReadsOnly p.graph P := by
  have hmissing : p.graph.ReadError error := by
    rw [Store.missingAtom_of_atom hlink]
    exact .missing id
  have htake : ((Reading.targets id).take p.graph.store).answer = .error error := Metered.answer_bind_of_error hlink
  exact ⟨[], true, fun _ => Blueprint.reads_of_error (Metered.answer_bind_of_error htake) hmissing, by simp⟩

private theorem answers_constraint (hstore : p.graph.store.Consistent) (hleaf : c.isCompound = false)
    (htest : c.isTest = false) (hwalk : c.walkStart? = none) (hconforming : c.Conforming) (h : p.planLeaf c = .ok plan) :
    ∃ items, plan.Answers p.graph c items := by
  have hcombinator := Condition.isCombinator_of_not_isCompound hleaf
  rcases estimate_of_planLeaf hleaf htest hwalk h with ⟨e, he⟩ | ⟨id, error, rfl, hlink⟩
  · have hdirect := (Condition.shape_of_constraint hleaf htest hwalk he).1
    obtain ⟨items, ordered, seekable, hlists⟩ := listsFor_planLeaf hstore hleaf hconforming he hdirect h
    refine ⟨items, ⟨ordered, fun limit => (hlists.lists limit).reads⟩, hlists.results, fun d hd hlistable => ?_⟩
    rw [Condition.alternatives_of_not_isCombinator hcombinator, List.mem_singleton] at hd
    subst hd
    exact ⟨hlists.all hlistable.registered, (hlists.lists none).nodup⟩
  · cases h
    refine (readsOnly_targetSet hlink _).answers (not_listable rfl ?_)
    rintro ⟨e, he, -⟩
    obtain ⟨link, hlink', -⟩ := bind_eq_ok_iff.mp he
    rw [hlink] at hlink'
    simp at hlink'

/-- The plan of a leaf other than a mapping answers it. -/
theorem answers_planLeaf (hstore : p.graph.store.Consistent) (hleaf : c.isCombinator = false)
    (hmap : ∀ operand mapping, c ≠ .map operand mapping) (hconforming : c.Conforming) (h : p.planLeaf c = .ok plan) :
    ∃ items, plan.Answers p.graph c items := by
  by_cases htest : c.isTest = true
  · refine (readsOnly_test hstore htest h).answers (not_listable hleaf ?_)
    rintro ⟨e, he, hdirect⟩
    exact (Condition.shape_of_isTest htest he).2.not_direct hdirect
  · rcases hwalk : c.walkStart? with _ | id
    · have hcompound : c.isCompound = false := Condition.isCompound_of_not_isTest hleaf htest hmap
      exact answers_constraint hstore hcompound (Bool.eq_false_iff.mpr htest) hwalk hconforming h
    · refine (readsOnly_walk hstore hwalk h).answers (not_listable hleaf ?_)
      rintro ⟨e, he, hdirect⟩
      exact (Condition.shape_of_walk hwalk he).2.1.not_direct hdirect

/-! ### Conjunctions -/

end Planner

/-- The conjunct is a leaf with its estimate, and if its results are direct, its plan lists them in the way the estimate
says. -/
structure Conjunct.Listed (g : Graph) (c : Conjunct) : Prop where
  isLeaf : c.condition.isCombinator = false
  estimate : c.condition.estimate g = .ok c.estimate
  lists : c.estimate.ordered = true ∨ c.estimate.randomAccess = true → ∀ plan, c.plan = .ok plan →
    ∃ items ordered seekable, plan.ListsFor g c.estimate c.condition items ordered seekable

/-- What planning a conjunction relies on in a conjunct: also where its results are not direct, its plan reads results of
it. -/
structure Conjunct.Usable (g : Graph) (c : Conjunct) : Prop extends Conjunct.Listed g c where
  reads : ∀ plan, c.plan = .ok plan → plan.ReadsOnly g (c.condition.Results g)

theorem Plan.ListsFor.listsOnly {g : Graph} {plan : Plan} {e : Estimate} {c : Condition} {items : List AtomId}
    {ordered seekable : Bool} (h : plan.ListsFor g e c items ordered seekable) :
    plan.ListsOnly g ordered seekable (c.Results g) := ⟨items, h.lists, h.results⟩

theorem Conjunct.Listed.listsOnly {g : Graph} {x : Conjunct} (h : x.Listed g)
    (hdirect : x.estimate.ordered = true ∨ x.estimate.randomAccess = true) (plan : Plan) (hplan : x.plan = .ok plan) :
    ∃ ordered seekable, plan.ListsOnly g ordered seekable (x.condition.Results g) ∧ x.estimate.Fits ordered seekable := by
  obtain ⟨items, o, k, hlists⟩ := h.lists hdirect plan hplan
  exact ⟨o, k, hlists.listsOnly, hlists.fits⟩

namespace Planner

variable {p : Planner} {g : Graph} {c : Condition} {b : Buckets} {xs : List Conjunct} {plan : Plan}

private theorem results_concat (ds : List Condition) (c : Condition) :
    (fun id => ∀ d ∈ ds ++ [c], d.Results g id) = fun id => (∀ d ∈ ds, d.Results g id) ∧ c.Results g id := by
  simp [or_imp, forall_and]

section Listed

variable {S : Condition → AtomId → Prop} {zigZags base : Option Plan}

private theorem listsOnly_seekable (hb : b.Sound) (hlists : ∀ x ∈ b.seekable, ∀ plan, x.plan = .ok plan →
      ∃ ordered seekable, plan.ListsOnly g ordered seekable (S x.condition) ∧ x.estimate.Fits ordered seekable) :
    ∀ x ∈ b.seekable, ∀ plan, x.plan = .ok plan → plan.ListsOnly g true true (S x.condition) := by
  intro x hx plan hplan
  obtain ⟨ho, hk⟩ := hb.seekable x hx
  obtain ⟨o, k, honly, hfits⟩ := hlists x hx plan hplan
  rwa [hfits.inOrder ho, hfits.sought ho hk] at honly

/-- The base that is intersected from conjuncts whose direct results are listed. -/
theorem covers_listsOnly {all : List Condition → AtomId → Prop} (hsingle : ∀ c, all [c] = S c)
    (hconcat : ∀ cs c, all (cs ++ [c]) = fun id => all cs id ∧ S c id) (hb : b.Sound)
    (hlists : ∀ x ∈ b.all, x.estimate.ordered = true ∨ x.estimate.randomAccess = true → ∀ plan, x.plan = .ok plan →
      ∃ ordered seekable, plan.ListsOnly g ordered seekable (S x.condition) ∧ x.estimate.Fits ordered seekable)
    (hzigZags : intersect .zigZag none b.seekable = .ok zigZags)
    (hbase : intersect .sortedMerge zigZags b.ordered = .ok base) :
    Covers (fun plan P => ∃ k, plan.ListsOnly g true k P) all base
      ((b.seekable ++ b.ordered).map Conjunct.condition) := by
  have hseekable : ∀ x ∈ b.seekable, ∀ plan, x.plan = .ok plan → plan.ListsOnly g true true (S x.condition) :=
    listsOnly_seekable hb fun x hx => hlists x (by simp [Buckets.all, hx]) (.inl (hb.seekable x hx).1)
  have hordered : ∀ x ∈ b.ordered, ∀ plan, x.plan = .ok plan → ∃ k, plan.ListsOnly g true k (S x.condition) := by
    intro x hx plan hplan
    have ho := hb.ordered x hx
    obtain ⟨o, k, honly, hfits⟩ := hlists x (by simp [Buckets.all, hx]) (.inl ho) plan hplan
    rw [hfits.inOrder ho] at honly
    exact ⟨k, honly⟩
  exact covers_base hsingle hconcat (fun plan P => plan.ListsOnly g true true P) (fun _ _ _ _ hl hr => hl.zigZag hr)
    (fun _ _ _ _ => Plan.listsOnly_sortedMerge) (fun _ _ h => ⟨true, h⟩) hseekable hordered hzigZags hbase

/-- What is intersected from the conjuncts that can be sought. -/
theorem covers_seekable (hb : b.Sound) (hlisted : ∀ x ∈ b.seekable, x.Listed g)
    (h : intersect .zigZag none b.seekable = .ok zigZags) :
    Covers (fun plan P => plan.ListsOnly g true true P) (fun ds id => ∀ d ∈ ds, d.Results g id) zigZags
      (b.seekable.map Conjunct.condition) :=
  have hseekable := listsOnly_seekable hb fun x hx => (hlisted x hx).listsOnly (.inl (hb.seekable x hx).1)
  covers_intersect (fun _ _ _ _ hl hr => hl.zigZag hr) (by simp) results_concat hseekable covers_none h

/-- The base that is intersected from the ordered conjuncts. -/
theorem covers_results (hb : b.Sound) (hlisted : ∀ x ∈ b.all, x.Listed g)
    (hzigZags : intersect .zigZag none b.seekable = .ok zigZags)
    (hbase : intersect .sortedMerge zigZags b.ordered = .ok base) :
    Covers (fun plan P => ∃ k, plan.ListsOnly g true k P) (fun ds id => ∀ d ∈ ds, d.Results g id) base
      ((b.seekable ++ b.ordered).map Conjunct.condition) :=
  covers_listsOnly (by simp) results_concat hb (fun x hx => (hlisted x hx).listsOnly) hzigZags hbase

end Listed

theorem isPredicate_of_tests (hb : b.Sound) {x : Conjunct} (hx : x ∈ b.tests) (hleaf : x.condition.isCombinator = false)
    (he : x.condition.estimate g = .ok x.estimate) : x.estimate.isPredicate = true :=
  (hb.tests x hx).elim (Condition.isPredicate_of_predicateOnly hleaf he) id

/-- The steps narrow down to results of the conjuncts left for the filter. -/
private theorem narrow_steps {ss : List FilterStep} (hstore : g.store.Consistent) (hb : b.Sound)
    (husable : ∀ x ∈ b.tested, x.Usable g) (h : steps b = .ok ss) :
    FilterStep.Narrow g ss fun id => ∀ x ∈ b.tested, x.condition.Results g id := by
  have htests : ∀ x ∈ b.tests, (FilterStep.predicate x.condition x.testCost).NarrowsTo g (x.condition.Results g) := by
    intro x hx
    have hx' := husable x (by simp [Buckets.tested, hx])
    have htestable := isPredicate_of_tests hb hx hx'.isLeaf hx'.estimate
    exact FilterStep.narrowsTo_predicate
      (fun _ _ => Condition.readError_of_satisfies hstore hx'.estimate htestable)
      fun _ => Condition.results_of_satisfies hx'.isLeaf
  have hprobed : ∀ x ∈ b.probed, ∀ plan, x.plan = .ok plan →
      (FilterStep.membership plan x.testCost).NarrowsTo g (x.condition.Results g) := by
    intro x hx plan hplan
    obtain ⟨ho, hk⟩ := hb.probed x hx
    obtain ⟨o, k, honly, hfits⟩ := (husable x (by simp [Buckets.tested, hx])).listsOnly (.inr hk) plan hplan
    obtain ⟨rfl, rfl⟩ := hfits.probed ho hk
    exact FilterStep.narrowsTo_membership honly
  have hcollected : ∀ x ∈ b.collected, ∀ plan, x.plan = .ok plan →
      (FilterStep.materialized plan).NarrowsTo g (x.condition.Results g) := fun x hx plan hplan =>
    FilterStep.narrowsTo_materialized ((husable x (by simp [Buckets.tested, hx])).reads plan hplan)
  obtain ⟨ds, hall, hperm⟩ :=
    forall₂_steps (T := fun step c => step.NarrowsTo g (c.Results g)) htests hprobed hcollected h
  have hnarrow : FilterStep.Narrow g ss fun id => ∀ d ∈ ds, d.Results g id := by
    clear h hperm
    induction hall with
    | nil => exact FilterStep.narrow_nil.mono fun id _ => by simp
    | cons hstep _ ih => exact (hstep _ _ ih).mono fun id hid => List.forall_mem_cons.mpr hid
  exact hnarrow.mono fun id hid x hx => hid _ (hperm.mem_iff.mpr (List.mem_map_of_mem hx))

/-- The plan of a conjunction reads results of all its conjuncts. -/
theorem readsOnly_planConjunction (hstore : p.graph.store.Consistent) (husable : ∀ x ∈ xs, x.Usable p.graph)
    (h : p.planConjunction c xs = .ok plan) :
    plan.ReadsOnly p.graph fun id => ∀ x ∈ xs, x.condition.Results p.graph id := by
  obtain ⟨b, zigZags, base?, hb, -, hall, hzigZags, hbase?, base, rest, ss, hchoice, hss, rfl⟩ :=
    stages_of_planConjunction h
  have hb' : ∀ x ∈ b.all, x.Usable p.graph := fun x hx => husable x (hall.mem_iff.mp hx)
  have hcovers := covers_results hb (fun x hx => (hb' x hx).toListed) hzigZags hbase?
  -- what is taken for the base and what is left for the filter are all the conjuncts
  have hparts : ∃ done : List Conjunct, base.ReadsOnly p.graph (fun id => ∀ x ∈ done, x.condition.Results p.graph id) ∧
      rest.Sound ∧ (done ++ rest.tested).Perm xs := by
    rcases hchoice with ⟨rfl, rfl⟩ | ⟨rfl, hchoice⟩
    · obtain ⟨k, hbase⟩ := hcovers
      refine ⟨rest.seekable ++ rest.ordered, hbase.readsOnly.mono fun id hid x hx => ?_, hb, hall⟩
      exact hid _ (List.mem_map_of_mem hx)
    · have hnone : (b.seekable ++ b.ordered).map Conjunct.condition = [] := hcovers
      rw [Buckets.all, List.map_eq_nil_iff.mp hnone, List.nil_append] at hall
      rcases chooseBase_cases hb hchoice with ⟨x, hplan, hrest, hperm⟩ | ⟨hscan, rfl, -⟩
      · have hx : x.Usable p.graph := husable x (hall.mem_iff.mp (hperm.mem_iff.mpr List.mem_cons_self))
        exact ⟨[x], (hx.reads base hplan).mono fun id hid => by simpa using hid, hrest, hperm.symm.trans hall⟩
      · exact ⟨[], (listsOnly_fullScan hstore hscan).readsOnly.mono fun _ _ => by simp, hb, hall⟩
  obtain ⟨done, hbase, hrest, hperm⟩ := hparts
  have hsteps := narrow_steps hstore hrest
    (fun x hx => husable x (hperm.mem_iff.mp (List.mem_append_right _ hx))) hss
  refine (hbase.filtered hsteps).mono fun id hid x hx => ?_
  rcases List.mem_append.mp (hperm.mem_iff.mpr hx) with hx | hx
  · exact hid.1 x hx
  · exact hid.2 x hx

end Planner

end HyperQuery
