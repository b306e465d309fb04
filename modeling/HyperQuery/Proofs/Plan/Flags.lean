import HyperQuery.Proofs.Plan.Nested

/-!
# The flags of planned cursors

Where an estimate promises an order or seeking, all the results that it is put together from are direct, and the plan
does without walks, mappings and functions supplied by users. So its cursor opens (`Plan.Opens`), and what its flags are
can be told from the estimates of the leaves. Ordered conditions get ordered cursors (`opens_planWith_of_ordered`). A
condition that can be sought gets a cursor that can be sought if it is a leaf, or if every alternative has an ordered
leaf (`opens_planWith_of_sought`): without one an intersection filters a cursor that can merely be probed, and a union
reads one side after the other.
-/

namespace HyperQuery

variable {g : Graph}

/-! ### Flags of estimates -/

namespace Estimate

variable {e : Estimate} {es : List Estimate} {total : Nat} {ordered seekable : Bool}

theorem Fits.eq_of_randomAccess (h : e.Fits ordered seekable) (hk : e.randomAccess = true) :
    ordered = e.ordered ∧ seekable = true := by
  cases ho : e.ordered with
  | true => exact ⟨h.inOrder ho, h.sought ho hk⟩
  | false => exact h.probed ho hk

private theorem flag_of_foldl {flag : Estimate → Bool} {step : Estimate → Estimate → Estimate}
    (hstep : ∀ a b, flag (step a b) = (flag a && flag b)) (h : flag (es.foldl step e) = true) :
    flag e = true ∧ ∀ d ∈ es, flag d = true := by
  induction es generalizing e with
  | nil => exact ⟨h, by simp⟩
  | cons d es ih =>
    obtain ⟨hfirst, hes⟩ := ih h
    rw [hstep, Bool.and_eq_true] at hfirst
    exact ⟨hfirst.1, List.forall_mem_cons.mpr ⟨hfirst.2, hes⟩⟩

theorem ordered_of_conjunction (h : (conjunction total es).ordered = true) : ∀ d ∈ es, d.ordered = true := by
  cases es with
  | nil => simp
  | cons d es => exact (flag_of_foldl (fun _ _ => rfl) h).2

theorem randomAccess_of_conjunction (h : (conjunction total es).randomAccess = true) :
    ∀ d ∈ es, d.randomAccess = true := by
  cases es with
  | nil => simp
  | cons d es => exact (flag_of_foldl (fun _ _ => rfl) h).2

theorem ordered_of_disjunction (h : (disjunction total es).ordered = true) : ∀ d ∈ es, d.ordered = true := by
  cases es with
  | nil => simp
  | cons d es => exact (@flag_of_foldl _ (d :: es) ordered join (fun _ _ => rfl) h).2

theorem randomAccess_of_disjunction (h : (disjunction total es).randomAccess = true) :
    ∀ d ∈ es, d.randomAccess = true := by
  cases es with
  | nil => simp
  | cons d es => exact (@flag_of_foldl _ (d :: es) randomAccess join (fun _ _ => rfl) h).2

end Estimate

/-- Whether a leaf of the condition has results in ascending order, as its estimate says. -/
def Condition.hasOrdered (g : Graph) (c : Condition) : Bool :=
  c.leaves.any fun l =>
    match l.estimate g with
    | .ok e => e.ordered
    | .error _ => false

/-! ### Plans that open -/

namespace Plan

/-- Whatever the limit on collected sets, the cursor of the plan opens and lists something. -/
def Opens (g : Graph) (plan : Plan) (ordered seekable : Bool) : Prop :=
  ∀ limit, ∃ items, (plan.blueprint limit).Lists g items ordered seekable

variable {plan left right : Plan} {plans : List Plan} {ordered seekable ordered' seekable' : Bool}

theorem ListsOnly.opens {P : AtomId → Prop} (h : plan.ListsOnly g ordered seekable P) : plan.Opens g ordered seekable := by
  obtain ⟨items, hlists, -⟩ := h
  exact fun limit => ⟨items, hlists limit⟩

theorem Unlimited.opens {P : AtomId → Prop} (hunlimited : plan.Unlimited) (h : plan.Finds g ordered seekable P) :
    plan.Opens g ordered seekable := by
  obtain ⟨items, hlists, -⟩ := h
  exact fun limit => ⟨items, hunlimited limit ▸ hlists⟩

theorem Opens.union (hl : left.Opens g ordered seekable) (hr : right.Opens g ordered' seekable') :
    (Plan.union left right).Opens g (ordered && ordered') (ordered && ordered' && (seekable && seekable')) := by
  intro limit
  obtain ⟨as, hl⟩ := hl limit
  obtain ⟨bs, hr⟩ := hr limit
  obtain ⟨items, hlists, -⟩ := hl.union hr
  exact ⟨items, hlists⟩

theorem opens_unionAll_of_ordered (h : ∀ plan ∈ plans, ∃ seekable, plan.Opens g true seekable) :
    ∃ seekable, (Plan.unionAll plans).Opens g true seekable := by
  cases plans with
  | nil =>
    have hempty : Plan.empty.Unlimited := fun _ => rfl
    exact ⟨true, hempty.opens finds_empty⟩
  | cons plan plans =>
    refine List.foldlRecOn (motive := fun left => ∃ seekable, left.Opens g true seekable) plans Plan.union
      (h plan (by simp)) fun left hleft right hright => ?_
    obtain ⟨k, hleft⟩ := hleft
    obtain ⟨k', hright⟩ := h right (by simp [hright])
    exact ⟨_, hleft.union hright⟩

section Union

variable {α : Type} {o k : α → Bool} {xs : List α}

private theorem opens_foldl_union (h : List.Forall₂ (fun plan x => plan.Opens g (o x) (k x)) plans xs)
    (hleft : left.Opens g ordered (ordered && seekable)) :
    (plans.foldl Plan.union left).Opens g (ordered && xs.all o) (ordered && seekable && xs.all fun x => o x && k x) := by
  induction h generalizing left ordered seekable with
  | nil => simpa using hleft
  | @cons plan x plans xs hplan _ ih =>
    have hflags : (ordered && o x && (ordered && seekable && k x)) = (ordered && o x && (seekable && k x)) := by
      cases ordered <;> rfl
    have hunion : (Plan.union left plan).Opens g (ordered && o x) (ordered && o x && (seekable && k x)) :=
      hflags ▸ hleft.union hplan
    simpa only [List.foldl_cons, List.all_cons, Bool.and_assoc, Bool.and_left_comm] using ih hunion

/-- A union of several plans is ordered if all of them are, and can be sought if all of them are ordered and can be
sought. -/
theorem opens_unionAll (h : List.Forall₂ (fun plan x => plan.Opens g (o x) (k x)) plans xs) (hseveral : 2 ≤ xs.length) :
    (Plan.unionAll plans).Opens g (xs.all o) (xs.all fun x => o x && k x) := by
  cases h with
  | nil => simp at hseveral
  | @cons first x _ _ hfirst h =>
    cases h with
    | nil => simp at hseveral
    | @cons second y _ _ hsecond hrest =>
      simpa only [unionAll, List.foldl_cons, List.all_cons, Bool.and_assoc, Bool.and_left_comm] using
        opens_foldl_union hrest (hfirst.union hsecond)

end Union

end Plan

/-! ### Filters by probing -/

/-- The step probes a cursor that can be sought. -/
def FilterStep.Probing (g : Graph) (step : FilterStep) : Prop :=
  ∃ plan cost ordered, step = .membership plan cost ∧ plan.Opens g ordered true

theorem FilterStep.exists_decide_of_probing {steps : List FilterStep} (h : ∀ step ∈ steps, step.Probing g)
    (limit : Option Nat) (domain : AtomId → Prop) :
    ∃ property, Check.Decide g (checks limit steps) domain property := by
  induction steps with
  | nil => exact ⟨_, Check.decide_nil⟩
  | cons step steps ih =>
    obtain ⟨plan, cost, o, rfl, hopens⟩ := h step (by simp)
    obtain ⟨items, hlists⟩ := hopens limit
    obtain ⟨property, hrest⟩ := ih fun step hstep => h step (by simp [hstep])
    exact ⟨_, hrest.member hlists⟩

/-- Probing the candidates takes away that they can be sought, unless they are ordered. -/
theorem Plan.Opens.filtered {base : Plan} {steps : List FilterStep} {ordered seekable : Bool}
    (hbase : base.Opens g ordered seekable) (hsteps : ∀ step ∈ steps, step.Probing g) :
    (Plan.filtered base steps).Opens g ordered (if steps.isEmpty then seekable else ordered && seekable) := by
  cases steps with
  | nil => exact hbase
  | cons step steps =>
    intro limit
    obtain ⟨items, hlists⟩ := hbase limit
    obtain ⟨property, hchecks⟩ := FilterStep.exists_decide_of_probing hsteps limit (· ∈ items)
    exact ⟨_, hlists.filter hchecks⟩

namespace Planner

open Condition

variable {p : Planner} {f : Condition → Except QueryError Plan} {c : Condition} {cs : List Condition} {e : Estimate}
  {plan : Plan} {b : Buckets} {xs : List Conjunct}

/-! ### Leaves -/

theorem opens_planWith_leaf (hstore : p.graph.store.Consistent) (hleaf : c.isCombinator = false)
    (hconforming : c.Conforming) (he : c.estimate p.graph = .ok e) (hdirect : e.ordered = true ∨ e.randomAccess = true)
    (h : p.planWith f c = .ok plan) : ∃ ordered seekable, plan.Opens p.graph ordered seekable ∧ e.Fits ordered seekable := by
  obtain ⟨items, o, k, hlists⟩ := (listed_conjunct hstore hleaf hconforming he).lists hdirect plan h
  exact ⟨o, k, hlists.listsOnly.opens, hlists.fits⟩

/-! ### Conjunctions -/

theorem not_direct_of_indirect (hb : b.Sound) {x : Conjunct} (hx : x ∈ b.tests ++ b.collected) (hlisted : x.Listed g) :
    ¬ (x.estimate.ordered = true ∨ x.estimate.randomAccess = true) := by
  rcases hb.indirect x hx with honly | ⟨ho, hk⟩
  · rcases leaf_cases hlisted.isLeaf hlisted.estimate with ⟨-, -, hnot⟩ | ⟨hindirect, -⟩
    · simp [honly] at hnot
    · exact hindirect.not_direct
  · simp [ho, hk]

theorem unordered_of_tested (hb : b.Sound) {x : Conjunct} (hlisted : x.Listed g) (hx : x ∈ b.tested) :
    x.estimate.ordered = false := by
  simp only [Buckets.tested, List.mem_append, or_assoc] at hx
  rcases hx with hx | hx | hx
  · exact Bool.eq_false_iff.mpr fun ho => not_direct_of_indirect hb (List.mem_append_left _ hx) hlisted (.inl ho)
  · exact (hb.probed x hx).1
  · exact Bool.eq_false_iff.mpr fun ho => not_direct_of_indirect hb (List.mem_append_right _ hx) hlisted (.inl ho)

private theorem opens_fullScan (hstore : p.graph.store.Consistent) (h : p.fullScan c = .ok plan) :
    plan.Opens p.graph true true := (unlimited_fullScan h).opens (finds_fullScan_of_ok hstore h)

/-- A conjunction of ordered conjuncts is intersected from them, with nothing left to be tested. -/
theorem opens_planConjunction_of_ordered (hstore : p.graph.store.Consistent) (hlisted : ∀ x ∈ xs, x.Listed p.graph)
    (hordered : ∀ x ∈ xs, x.estimate.ordered = true) (h : p.planConjunction c xs = .ok plan) :
    ∃ seekable, plan.Opens p.graph true seekable := by
  obtain ⟨b, zigZags, base?, hb, -, hall, hzigZags, hbase?, base, rest, ss, hchoice, hss, rfl⟩ :=
    stages_of_planConjunction h
  have hnothing : b.tested = [] := by
    refine List.eq_nil_iff_forall_not_mem.mpr fun x hx => ?_
    have hxs : x ∈ xs := hall.mem_iff.mp (List.mem_append_right _ hx)
    simpa [unordered_of_tested hb (hlisted x hxs) hx] using hordered x hxs
  have hplain : rest = b → Plan.filtered base ss = base := by
    rintro rfl
    have hlength := length_steps hss
    rw [hnothing, List.length_nil, List.length_eq_zero_iff] at hlength
    rw [hlength]
    rfl
  have hcovers := covers_results hb (fun x hx => hlisted x (hall.mem_iff.mp hx)) hzigZags hbase?
  rcases hchoice with ⟨rfl, hrest⟩ | ⟨-, hchoice⟩
  · obtain ⟨k, honly⟩ := hcovers
    rw [hplain hrest]
    exact ⟨k, honly.opens⟩
  · rcases chooseBase_cases hb hchoice with ⟨x, -, -, hperm⟩ | ⟨hscan, hrest, -⟩
    · rw [hnothing] at hperm
      exact absurd hperm.symm (List.not_perm_cons_nil)
    · rw [hplain hrest]
      exact ⟨true, opens_fullScan hstore hscan⟩

/-- In a conjunction of conjuncts that can be sought everything but the base is probed. -/
private theorem probing_of_steps {ss : List FilterStep} (hb : b.Sound) (hlisted : ∀ x ∈ b.tested, x.Listed g)
    (hsought : ∀ x ∈ b.tested, x.estimate.randomAccess = true) (h : steps b = .ok ss) :
    ∀ step ∈ ss, step.Probing g := by
  have hdirect : ∀ x ∈ b.tested, x ∉ b.tests ++ b.collected := fun x hx hindirect =>
    not_direct_of_indirect hb hindirect (hlisted x hx) (.inr (hsought x hx))
  have hprobed : ∀ x ∈ b.probed, ∀ plan, x.plan = .ok plan → (FilterStep.membership plan x.testCost).Probing g := by
    intro x hx plan hplan
    obtain ⟨ho, hk⟩ := hb.probed x hx
    obtain ⟨items, o, k, hlists⟩ := (hlisted x (by simp [Buckets.tested, hx])).lists (.inr hk) plan hplan
    obtain ⟨rfl, rfl⟩ := hlists.fits.probed ho hk
    exact ⟨plan, _, false, rfl, hlists.listsOnly.opens⟩
  exact forall_steps (fun x hx => absurd (List.mem_append_left _ hx) (hdirect x (by simp [Buckets.tested, hx]))) hprobed
    (fun x hx => absurd (List.mem_append_right _ hx) (hdirect x (by simp [Buckets.tested, hx]))) h

/-- What is intersected from conjuncts that can be sought can be sought. -/
private theorem covers_sought {zigZags base : Option Plan} (hb : b.Sound) (hsettled : b.Settled)
    (hlisted : ∀ x ∈ b.all, x.Listed g) (hsought : ∀ x ∈ b.all, x.estimate.randomAccess = true)
    (hzigZags : intersect .zigZag none b.seekable = .ok zigZags)
    (hbase : intersect .sortedMerge zigZags b.ordered = .ok base) :
    Covers (fun plan _ => plan.Opens g true true) (fun _ _ => True) base
      ((b.seekable ++ b.ordered).map Conjunct.condition) := by
  have hordered : ∀ x ∈ b.ordered, x ∈ b.all := fun x hx => by simp [Buckets.all, hx]
  rcases hsettled with hunsought | ⟨hseekable, single, rest, hsingle, hunsought⟩
  · have hnone : b.ordered = [] := List.eq_nil_iff_forall_not_mem.mpr fun x hx => by
      simpa [hsought x (hordered x hx)] using hunsought x hx
    rw [hnone] at hbase ⊢
    cases hbase
    have hcovers := covers_seekable hb (fun x hx => hlisted x (by simp [Buckets.all, hx])) hzigZags
    rw [List.append_nil]
    cases zigZags with
    | some left => exact Plan.ListsOnly.opens hcovers
    | none => exact hcovers
  · have hnone : rest = [] := List.eq_nil_iff_forall_not_mem.mpr fun x hx => by
      simpa [hsought x (hordered x (by simp [hsingle, hx]))] using hunsought x hx
    have hall : single ∈ b.all := hordered single (by simp [hsingle])
    rw [hseekable] at hzigZags ⊢
    rw [hsingle, hnone] at hbase ⊢
    cases hzigZags
    obtain ⟨plan, hplan, hbase⟩ := bind_eq_ok_iff.mp hbase
    cases hbase
    have ho := hb.ordered single (by simp [hsingle])
    obtain ⟨items, o, k, hlists⟩ := (hlisted single hall).lists (.inl ho) plan hplan
    obtain ⟨hflag, rfl⟩ := hlists.fits.eq_of_randomAccess (hsought single hall)
    rw [ho] at hflag
    subst hflag
    exact hlists.listsOnly.opens

/-- Of several conjuncts that can be sought, but are not ordered, one is the base, and the others are probed. -/
private theorem opens_chooseBase {base : Plan} {rest : Buckets} {ss : List FilterStep} (hb : b.Sound)
    (hlisted : ∀ x ∈ b.tested, x.Listed p.graph) (hsought : ∀ x ∈ b.tested, x.estimate.randomAccess = true)
    (hunordered : ∀ x ∈ b.tested, x.estimate.ordered = false) (hseveral : 2 ≤ b.tested.length)
    (hchoice : p.chooseBase c b = .ok (base, rest)) (hss : steps rest = .ok ss) :
    (Plan.filtered base ss).Opens p.graph false false := by
  rcases chooseBase_cases hb hchoice with ⟨x, hplan, hrest, hperm⟩ | ⟨-, rfl, hprobed, hcollected⟩
  · have hx : x ∈ b.tested := hperm.mem_iff.mpr List.mem_cons_self
    obtain ⟨items, o, k, hlists⟩ := (hlisted x hx).lists (.inr (hsought x hx)) base hplan
    obtain ⟨rfl, rfl⟩ := hlists.fits.probed (hunordered x hx) (hsought x hx)
    have hmem : ∀ y ∈ rest.tested, y ∈ b.tested := fun y hy => hperm.mem_iff.mpr (List.mem_cons_of_mem _ hy)
    have hprobing := probing_of_steps hrest (fun y hy => hlisted y (hmem y hy)) (fun y hy => hsought y (hmem y hy)) hss
    -- the base is only one of the conjuncts, so something is left to be probed
    have hsteps : ss.isEmpty = false := by
      have hlength := hperm.length_eq
      rw [List.length_cons, ← length_steps hss] at hlength
      cases ss with
      | nil => simp [hlength] at hseveral
      | cons _ _ => rfl
    simpa [hsteps] using hlists.listsOnly.opens.filtered hprobing
  · cases htests : rest.tests with
    | nil => simp [Buckets.tested, htests, hprobed, hcollected] at hseveral
    | cons x _ =>
      have hx : x ∈ rest.tested := by simp [Buckets.tested, htests]
      exact absurd (.inr (hsought x hx)) (not_direct_of_indirect hb (by simp [htests]) (hlisted x hx))

/-- A conjunction of several conjuncts that can be sought is ordered and can be sought if one of them is ordered, and
otherwise neither. -/
theorem opens_planConjunction_of_sought (hlisted : ∀ x ∈ xs, x.Listed p.graph)
    (hsought : ∀ x ∈ xs, x.estimate.randomAccess = true) (hseveral : 2 ≤ xs.length)
    (h : p.planConjunction c xs = .ok plan) :
    plan.Opens p.graph (xs.any (·.estimate.ordered)) (xs.any (·.estimate.ordered)) := by
  obtain ⟨b, zigZags, base?, hb, hsettled, hall, hzigZags, hbase?, base, rest, ss, hchoice, hss, rfl⟩ :=
    stages_of_planConjunction h
  have hlisted' : ∀ x ∈ b.all, x.Listed p.graph := fun x hx => hlisted x (hall.mem_iff.mp hx)
  have hsought' : ∀ x ∈ b.all, x.estimate.randomAccess = true := fun x hx => hsought x (hall.mem_iff.mp hx)
  have hcovers := covers_sought hb hsettled hlisted' hsought' hzigZags hbase?
  cases hany : xs.any (·.estimate.ordered) with
  | true =>
    obtain ⟨x, hx, ho⟩ := List.any_eq_true.mp hany
    have hmerged : x ∈ b.seekable ++ b.ordered := by
      refine (List.mem_append.mp (hall.mem_iff.mpr hx)).resolve_right fun htested => ?_
      simp [unordered_of_tested hb (hlisted x hx) htested] at ho
    rcases hchoice with ⟨rfl, rfl⟩ | ⟨rfl, -⟩
    · have hbase : base.Opens p.graph true true := hcovers
      have hprobing := probing_of_steps hb (fun x hx => hlisted' x (List.mem_append_right _ hx))
        (fun x hx => hsought' x (List.mem_append_right _ hx)) hss
      simpa using hbase.filtered hprobing
    · have hnone : (b.seekable ++ b.ordered).map Conjunct.condition = [] := hcovers
      rw [List.map_eq_nil_iff.mp hnone] at hmerged
      simp at hmerged
  | false =>
    have hunordered : ∀ x ∈ b.all, x.estimate.ordered = false := fun x hx => by
      simpa using List.any_eq_false.mp hany x (hall.mem_iff.mp hx)
    have hseekable : b.seekable = [] := List.eq_nil_iff_forall_not_mem.mpr fun x hx => by
      simpa [(hb.seekable x hx).1] using hunordered x (by simp [Buckets.all, hx])
    have hordered : b.ordered = [] := List.eq_nil_iff_forall_not_mem.mpr fun x hx => by
      simpa [hb.ordered x hx] using hunordered x (by simp [Buckets.all, hx])
    have htested : b.all = b.tested := by rw [Buckets.all, hseekable, hordered, List.nil_append, List.nil_append]
    rw [hseekable] at hzigZags
    cases hzigZags
    rw [hordered] at hbase?
    cases hbase?
    obtain ⟨hnone, -⟩ | ⟨-, hchoice⟩ := hchoice
    · simp at hnone
    rw [htested] at hall hlisted' hsought' hunordered
    exact opens_chooseBase hb hlisted' hsought' hunordered (hall.length_eq.symm ▸ hseveral) hchoice hss

/-! ### Arms -/

/-- An arm with several conditions is planned as a conjunction of conjuncts for them, the flags of which are those that
are estimated. -/
private theorem exists_planConjunction_of_arm {es : List Estimate} {flag : Estimate → Prop}
    (hstore : p.graph.store.Consistent) (hleaf : ∀ l ∈ cs, l.isCombinator = false)
    (hconforming : (Condition.and cs).Conforming) (hes : estimates p.graph cs = .ok es) (hflag : ∀ d ∈ es, flag d)
    (h : p.planWith f (.and cs) = .ok plan) :
    ∃ xs, p.planConjunction (.and cs) xs = .ok plan ∧ (∀ x ∈ xs, x.Listed p.graph ∧ flag x.estimate) ∧
      xs.map Conjunct.condition = cs := by
  rw [planWith, hes] at h
  refine ⟨_, h, forall_mem_conjuncts (S := fun x => x.Listed p.graph ∧ flag x.estimate) hes fun c hc e he => ⟨?_, ?_⟩⟩
  · refine listed_conjunct hstore (hleaf c hc) (fun ty path index literal op hmem => ?_) he
    exact hconforming ty path index literal op (mem_constraintsOf.mpr ⟨c, hc, hmem⟩)
  · obtain ⟨d, hd, hd'⟩ := exists_estimate_of_mem hes hc
    rw [he] at hd'
    cases hd'
    exact hflag e hd

theorem opens_planWith_arm_of_ordered (hstore : p.graph.store.Consistent) (harm : ArmOf Conforming c)
    (he : c.estimate p.graph = .ok e) (ho : e.ordered = true) (h : p.planWith f c = .ok plan) :
    ∃ seekable, plan.Opens p.graph true seekable := by
  have hconforming : c.Conforming := names_iff_leaves.mpr harm.leaves
  rcases isArm_cases harm.isArm with hleaf | ⟨cs, rfl, hleaf⟩
  · obtain ⟨o, k, hopens, hfits⟩ := opens_planWith_leaf hstore hleaf hconforming he (.inl ho) h
    exact ⟨k, hfits.inOrder ho ▸ hopens⟩
  · obtain ⟨es, hes, he⟩ := bind_eq_ok_iff.mp he
    cases he
    obtain ⟨xs, h, hconjuncts, -⟩ :=
      exists_planConjunction_of_arm hstore hleaf hconforming hes (Estimate.ordered_of_conjunction ho) h
    exact opens_planConjunction_of_ordered hstore (fun x hx => (hconjuncts x hx).1) (fun x hx => (hconjuncts x hx).2) h

theorem hasOrdered_of_leaf (hleaf : c.isCombinator = false) (he : c.estimate g = .ok e) : c.hasOrdered g = e.ordered := by
  simp [hasOrdered, leaves_of_not_isCombinator hleaf, he]

private theorem hasOrdered_and (hlisted : ∀ x ∈ xs, x.Listed g) :
    (Condition.and (xs.map Conjunct.condition)).hasOrdered g = xs.any (·.estimate.ordered) := by
  rw [hasOrdered, leaves]
  induction xs with
  | nil => rfl
  | cons x xs ih =>
    obtain ⟨hx, hrest⟩ := List.forall_mem_cons.mp hlisted
    have hfirst := hasOrdered_of_leaf hx.isLeaf hx.estimate
    rw [hasOrdered] at hfirst
    rw [List.map_cons, leavesOf, List.any_append, hfirst, ih hrest, List.any_cons]

/-- The cursor of an arm that can be sought is ordered if the arm has an ordered leaf. Otherwise it can be sought only
if the arm is a leaf. -/
theorem opens_planWith_arm_of_sought (hstore : p.graph.store.Consistent) (harm : ArmOf Conforming c)
    (he : c.estimate p.graph = .ok e) (hk : e.randomAccess = true) (h : p.planWith f c = .ok plan) :
    plan.Opens p.graph (c.hasOrdered p.graph) (c.hasOrdered p.graph || !c.isCombinator) := by
  have hconforming : c.Conforming := names_iff_leaves.mpr harm.leaves
  rcases isArm_cases harm.isArm with hleaf | ⟨cs, rfl, hleaf⟩
  · obtain ⟨o, k, hopens, hfits⟩ := opens_planWith_leaf hstore hleaf hconforming he (.inr hk) h
    obtain ⟨rfl, rfl⟩ := hfits.eq_of_randomAccess hk
    simpa [hasOrdered_of_leaf hleaf he, hleaf] using hopens
  · obtain ⟨es, hes, he⟩ := bind_eq_ok_iff.mp he
    cases he
    obtain ⟨xs, h, hconjuncts, hconditions⟩ :=
      exists_planConjunction_of_arm hstore hleaf hconforming hes (Estimate.randomAccess_of_conjunction hk) h
    have hlength := congrArg List.length hconditions
    rw [List.length_map] at hlength
    have hopens := opens_planConjunction_of_sought (fun x hx => (hconjuncts x hx).1) (fun x hx => (hconjuncts x hx).2)
      (hlength ▸ harm.several cs rfl) h
    rw [← hasOrdered_and fun x hx => (hconjuncts x hx).1, hconditions] at hopens
    simpa [isCombinator] using hopens

/-! ### Normal forms -/

/-- The cursor of an ordered condition in disjunctive normal form is ordered. -/
theorem opens_planWith_of_ordered (hstore : p.graph.store.Consistent) (hnormal : NormalFormOf Conforming c)
    (he : c.estimate p.graph = .ok e) (ho : e.ordered = true) (h : p.planWith f c = .ok plan) :
    ∃ seekable, plan.Opens p.graph true seekable := by
  cases c with
  | or cs =>
    obtain ⟨es, hes, he⟩ := bind_eq_ok_iff.mp he
    cases he
    rw [planWith] at h
    obtain ⟨plans, hplans, h⟩ := bind_eq_ok_iff.mp h
    cases h
    have hordered := Estimate.ordered_of_disjunction ho
    have heach := forall₂_plansWith (S := fun plan _ => (∃ k, plan.Opens p.graph true k) ∧ True)
      (fun c hc plan hplan => ?_) hplans
    · exact Plan.opens_unionAll_of_ordered ((List.forall₂_and_left _ _).mp heach).1
    · obtain ⟨d, hd, hce⟩ := exists_estimate_of_mem hes hc
      exact ⟨opens_planWith_arm_of_ordered hstore (hnormal.arms c hc) hce (hordered d hd) hplan, trivial⟩
  | _ => exact opens_planWith_arm_of_ordered hstore (hnormal.arms _ (List.mem_singleton_self _)) he ho h

/-- The cursor of a condition in disjunctive normal form that can be sought can be sought itself if the condition is a
leaf, or every alternative has an ordered leaf, and only then. -/
theorem opens_planWith_of_sought (hstore : p.graph.store.Consistent) (hnormal : NormalFormOf Conforming c)
    (he : c.estimate p.graph = .ok e) (hk : e.randomAccess = true) (h : p.planWith f c = .ok plan) :
    ∃ ordered, plan.Opens p.graph ordered (!c.isCombinator || c.alternatives.all (hasOrdered p.graph)) := by
  cases c with
  | or cs =>
    obtain ⟨es, hes, he⟩ := bind_eq_ok_iff.mp he
    cases he
    rw [planWith] at h
    obtain ⟨plans, hplans, h⟩ := bind_eq_ok_iff.mp h
    cases h
    have hsought := Estimate.randomAccess_of_disjunction hk
    have heach := forall₂_plansWith (S := fun plan c => plan.Opens p.graph (c.hasOrdered p.graph)
      (c.hasOrdered p.graph || !c.isCombinator)) (fun c hc plan hplan => ?_) hplans
    · have hunion := Plan.opens_unionAll heach (hnormal.several cs rfl)
      have habsorb : ∀ a b : Bool, (a && (a || b)) = a := by decide
      simp only [habsorb] at hunion
      exact ⟨_, hunion⟩
    · obtain ⟨d, hd, hce⟩ := exists_estimate_of_mem hes hc
      exact opens_planWith_arm_of_sought hstore (hnormal.arms c hc) hce (hsought d hd) hplan
  | _ =>
    have harm := opens_planWith_arm_of_sought hstore (hnormal.arms _ (List.mem_singleton_self _)) he hk h
    simp only [alternatives, List.all_cons, List.all_nil, Bool.and_true]
    rw [Bool.or_comm]
    exact ⟨_, harm⟩

end Planner

end HyperQuery
