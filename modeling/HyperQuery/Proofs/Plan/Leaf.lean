import HyperQuery.Proofs.LinkPattern
import HyperQuery.Proofs.Plan.Finds

/-!
# Plans of conditions that are not made of others

The plan of such a condition finds the atoms that match it, and its results come as the estimate says
(`Plan.Serves`), provided that every stored atom decides the condition, that walks start at stored atoms and that
indexes are the registered ones (`Condition.Plannable`).
-/

namespace HyperQuery

namespace Condition

/-- The atom that the walk of a condition starts from. -/
def walkStart? : Condition → Option AtomId
  | .walk w => some w.start
  | .subsumes id => some id
  | .subsumed id => some id
  | _ => none

/-- What planning relies on in a condition that is not made of others. -/
structure Plannable (g : Graph) (c : Condition) : Prop where
  decided : ∀ id a, g.store.atom? id = some a → c.Decided g a
  start : ∀ id, c.walkStart? = some id → ∃ a, g.store.atom? id = some a
  index : ∀ ty path index literal op, c = .indexedPart ty path index literal op →
    g.store.partIndex? ty path = some index
  notMap : ∀ operand mapping, c ≠ .map operand mapping

end Condition

/-- Results of that kind come as the estimate says: ordered ones in order, those that can be sought so, and those that
can be sought without order can be probed. -/
structure Estimate.Fits (e : Estimate) (ordered seekable : Bool) : Prop where
  inOrder : e.ordered = true → ordered = true
  sought : e.ordered = true → e.randomAccess = true → seekable = true
  probed : e.ordered = false → e.randomAccess = true → ordered = false ∧ seekable = true

theorem Estimate.fits_sorted {e : Estimate} (h : e.ordered = true ∨ e.randomAccess = false) : e.Fits true true := by
  refine ⟨fun _ => rfl, fun _ _ => rfl, fun ho hk => ?_⟩
  rcases h with h | h
  · rw [ho] at h
    simp at h
  · rw [hk] at h
    simp at h

/-- The plan finds the handles with the property, and they come as the estimate says. -/
def Plan.Serves (g : Graph) (plan : Plan) (e : Estimate) (P : AtomId → Prop) : Prop :=
  ∃ ordered seekable, plan.Finds g ordered seekable P ∧ e.Fits ordered seekable

namespace Planner

open Condition

variable {g : Graph} {p : Planner} {c : Condition} {e : Estimate} {plan : Plan}

private theorem stored_of_exists {id : AtomId} {Q : Atom → Prop}
    (h : ∃ a, p.graph.store.atom? id = some a ∧ Q a) : ∃ a, p.graph.store.atom? id = some a := by
  obtain ⟨a, ha, -⟩ := h
  exact ⟨a, ha⟩

theorem finds_fullScan_of_ok (hstore : p.graph.store.Consistent) (h : p.fullScan c = .ok plan) :
    plan.Finds p.graph true true fun id => ∃ a, p.graph.store.atom? id = some a := by
  unfold fullScan at h
  split at h
  · cases h
    exact Plan.finds_fullScan hstore
  · simp at h

/-- Testing what an ordered base finds. -/
theorem finds_tested {base : Plan} {P : AtomId → Prop} {cost : Double} (hbase : base.Finds p.graph true true P)
    (hP : ∀ id, P id → ∃ a, p.graph.store.atom? id = some a)
    (hdecided : ∀ id a, p.graph.store.atom? id = some a → c.Decided p.graph a)
    (hmatches : ∀ id, c.Matches p.graph id → P id) :
    (Plan.filtered base [.predicate c cost]).Finds p.graph true true (c.Matches p.graph) := by
  have hsteps : FilterStep.Decide p.graph [.predicate c cost] _ :=
    FilterStep.tests_predicate hdecided FilterStep.decide_nil
  exact (hbase.filtered hP hsteps).congr fun id => ⟨fun h => h.2.1, fun h => ⟨hmatches id h, h, trivial⟩⟩

theorem finds_filteredFullScan {cost : Double} (hstore : p.graph.store.Consistent) (hc : c.Plannable p.graph)
    (h : p.filteredFullScan c cost = .ok plan) : plan.Finds p.graph true true (c.Matches p.graph) := by
  obtain ⟨base, hbase, h⟩ := bind_eq_ok_iff.mp h
  cases h
  exact finds_tested (finds_fullScan_of_ok hstore hbase) (fun _ hid => hid) hc.decided fun _ => stored_of_exists

/-! ### Comparisons of values -/

theorem valueLookup_eq_some {s : Store} {ty : AtomId} {op : Comparison} {index : IndexHandle}
    (h : s.valueLookup ty op = .ok (some index)) :
    s.valueIndex? ty = some index ∧ (op.isRange = true → index.isOrdered = true) := by
  obtain ⟨d, -, h⟩ := bind_eq_ok_iff.mp h
  split at h
  · have h := Option.filter_eq_some_iff.mp (Except.ok.inj h)
    exact ⟨h.1, fun hrange => by simpa [hrange] using h.2⟩
  · simp [pure, Except.pure] at h

private theorem serves_typedValue {ty : AtomId} {literal : Value} {op : Comparison} {cost : Double}
    (hstore : p.graph.store.Consistent) (hc : c.Plannable p.graph)
    (hholds : ∀ a, c.Holds p.graph a ↔ a.type = ty ∧ a.value.satisfies op literal = true)
    (he : estimateTypedValue p.graph.store ty literal op = .ok e) (h : p.typedValue c ty literal op cost = .ok plan) :
    plan.Serves p.graph e (c.Matches p.graph) := by
  obtain ⟨index?, hlookup, h⟩ := bind_eq_ok_iff.mp h
  obtain ⟨index?', hlookup', he⟩ := bind_eq_ok_iff.mp he
  rw [hlookup] at hlookup'
  cases hlookup'
  cases index? with
  | some index =>
    cases h
    obtain ⟨hindex, hrange⟩ := valueLookup_eq_some hlookup
    obtain ⟨-, hview, hkind⟩ := hstore.valueIndexed ty index (Store.mem_of_lookup hindex)
    have hfinds := Plan.finds_indexLookup (g := p.graph) literal fun hop => ⟨hrange hop, hview⟩
    rw [bne_iff_ne.mpr hkind] at hfinds
    refine ⟨true, true, hfinds.congr fun id => ?_, Estimate.fits_sorted (.inl ?_)⟩
    · rw [Store.mem_matching_valueIndex hstore hindex]
      exact exists_congr fun a => and_congr_right fun _ => (hholds a).symm
    · cases hop : op == .eq <;> simp only [hop, Bool.false_eq_true, if_true, if_false] at he <;> cases he <;> rfl
  | none =>
    cases h
    cases he
    refine ⟨true, true, finds_tested (Plan.finds_typeScan hstore ty) (fun _ => stored_of_exists) hc.decided ?_,
      Estimate.fits_sorted (.inl rfl)⟩
    rintro id ⟨a, ha, hh⟩
    exact ⟨a, ha, ((hholds a).mp hh).1⟩

/-! ### Comparisons of indexed parts -/

/-- Only the handles of a hashed index, which answers nothing but equalities, come without an order. -/
private theorem fits_estimateIndexedPart {index : IndexHandle} {literal : Value} {op : Comparison}
    (hindex : index.Conforms) (hrange : op.isRange = true → index.isOrdered = true) :
    (estimateIndexedPart p.graph.store index literal op).Fits (index.kind != .hashed) true := by
  unfold estimateIndexedPart
  rw [hindex.sortedPostings_eq]
  cases hop : op.isRange with
  | true =>
    have hordered := hrange hop
    have hkind : (index.kind != .hashed) = true := by
      rw [beq_iff_eq.mp hordered]
      rfl
    simp only [hordered, hkind, Bool.not_true, Bool.false_eq_true, if_false, if_true]
    exact Estimate.fits_sorted (.inl rfl)
  | false =>
    cases hkind : index.kind != .hashed with
    | true =>
      simp only [Bool.not_false, if_true]
      exact Estimate.fits_sorted (.inl rfl)
    | false =>
      simp only [Bool.not_false, if_true, Bool.false_eq_true, if_false]
      exact ⟨fun ho => absurd ho (by simp [Estimate.probed]), fun ho => absurd ho (by simp [Estimate.probed]),
        fun _ _ => ⟨rfl, rfl⟩⟩

/-- A comparison of indexed parts is looked up in its index, or else the atoms of the type are tested; either way the
results come as the estimate says. -/
theorem serves_indexedPart {ty : AtomId} {path : String} {index : IndexHandle} {literal : Value} {op : Comparison}
    (hstore : p.graph.store.Consistent) (hindex : index.Conforms)
    (h : p.planLeaf (.indexedPart ty path index literal op) = .ok plan) :
    plan.Serves p.graph (estimateIndexedPart p.graph.store index literal op)
        (fun id => id ∈ index.matching p.graph.store op literal) ∨
      plan.Serves p.graph (estimateIndexedPart p.graph.store index literal op)
        ((Condition.indexedPart ty path index literal op).Matches p.graph) := by
  change (if (!op.isRange || index.isOrdered) = true then _ else _) = _ at h
  by_cases hlookup : (!op.isRange || index.isOrdered) = true
  · rw [if_pos hlookup] at h
    cases h
    have hrange : op.isRange = true → index.isOrdered = true := fun hr => by simpa [hr] using hlookup
    have hfinds := Plan.finds_indexLookup (g := p.graph) literal fun hop => ⟨hrange hop, hindex.view_eq (hrange hop)⟩
    exact .inl ⟨_, _, hfinds, fits_estimateIndexedPart hindex hrange⟩
  · rw [if_neg hlookup] at h
    obtain ⟨e', -, h⟩ := bind_eq_ok_iff.mp h
    cases h
    have htype : ∀ id, (Condition.indexedPart ty path index literal op).Matches p.graph id →
        ∃ a, p.graph.store.atom? id = some a ∧ a.type = ty := by
      rintro id ⟨a, ha, hh⟩
      exact ⟨a, ha, (holds_indexedPart_iff.mp hh).1⟩
    refine .inr ⟨true, true, finds_tested (Plan.finds_typeScan hstore ty) (fun _ => stored_of_exists)
      (fun _ _ _ => ⟨_, eval_indexedPart⟩) htype, Estimate.fits_sorted (.inl ?_)⟩
    -- a range that the index cannot answer is estimated as an ordered scan
    simp only [Bool.or_eq_true, Bool.not_eq_true', not_or, Bool.not_eq_false, Bool.not_eq_true] at hlookup
    unfold estimateIndexedPart
    simp only [hlookup.1, hlookup.2, Bool.not_true, Bool.false_eq_true, if_false]
    rfl

/-- A registered index holds exactly the atoms that match. -/
theorem mem_matching_iff_matches {ty : AtomId} {path : String} {index : IndexHandle} {literal : Value}
    {op : Comparison} (hstore : g.store.Consistent) (hindex : g.store.partIndex? ty path = some index) {id : AtomId} :
    id ∈ index.matching g.store op literal ↔ (Condition.indexedPart ty path index literal op).Matches g id := by
  rw [Store.mem_matching_partIndex hstore hindex]
  exact exists_congr fun a => and_congr_right fun _ => holds_indexedPart_iff.symm

/-! ### Targets of a link -/

theorem mem_targets_iff_matches {id : AtomId} {link : Atom} (hstore : g.store.Consistent) (hlink : g.store.atom id = .ok link)
    {x : AtomId} : x ∈ link.targets ↔ (Condition.targetOf id).Matches g x := by
  have hanswer : ∀ a : Atom, ((Condition.targetOf id).eval g a).answer = .ok (link.targets.contains a.id) :=
    fun a => Metered.answer_bind_of_ok hlink
  constructor
  · intro hx
    obtain ⟨a, ha⟩ := hstore.targets (Store.atom?_of_atom hlink) x hx
    refine ⟨a, ha, ?_⟩
    rw [Holds, hanswer, hstore.id_eq ha]
    simp [hx]
  · rintro ⟨a, ha, hh⟩
    rw [Holds, hanswer, hstore.id_eq ha] at hh
    simpa using Except.ok.inj hh

/-! ### Types and those below them -/

theorem finds_unionAll_typeScan (hstore : p.graph.store.Consistent) (types : List AtomId) :
    (Plan.unionAll (types.map .typeScan)).Finds p.graph true true fun id =>
      ∃ a, p.graph.store.atom? id = some a ∧ a.type ∈ types := by
  have heach : Plan.FindEach p.graph (fun o k => o = true ∧ k = true) (types.map .typeScan)
      (types.map fun ty id => ∃ a, p.graph.store.atom? id = some a ∧ a.type = ty) := by
    induction types with
    | nil => exact .nil
    | cons ty types ih => exact .cons ⟨true, true, ⟨rfl, rfl⟩, Plan.finds_typeScan hstore ty⟩ ih
  have hF : ∀ o k o' k' : Bool, (o = true ∧ k = true) → (o' = true ∧ k' = true) →
      (o && o') = true ∧ (o && o' && (k && k')) = true := by
    rintro _ _ _ _ ⟨rfl, rfl⟩ ⟨rfl, rfl⟩
    exact ⟨rfl, rfl⟩
  obtain ⟨o, k, ⟨rfl, rfl⟩, hfinds⟩ := heach.unionAll hF ⟨rfl, rfl⟩
  refine hfinds.congr fun id => ?_
  constructor
  · rintro ⟨P, hP, hid⟩
    obtain ⟨ty, hty, rfl⟩ := List.mem_map.mp hP
    obtain ⟨a, ha, rfl⟩ := hid
    exact ⟨a, ha, hty⟩
  · rintro ⟨a, ha, hty⟩
    exact ⟨_, List.mem_map.mpr ⟨a.type, hty, rfl⟩, a, ha, rfl⟩

/-! ### Link patterns -/

private theorem finds_incidences (hstore : p.graph.store.Consistent) (ids : List AtomId) {left : Plan}
    {before : List AtomId} (hleft : left.Finds p.graph true true fun id =>
      ∃ a, p.graph.store.atom? id = some a ∧ ∀ x ∈ before, x ∈ a.targets) :
    (ids.foldl (fun plan id => .zigZag plan (.incidence id)) left).Finds p.graph true true fun id =>
      ∃ a, p.graph.store.atom? id = some a ∧ ∀ x ∈ before ++ ids, x ∈ a.targets := by
  induction ids generalizing left before with
  | nil => exact hleft.congr fun id => by simp
  | cons y ids ih =>
    have hstep : (Plan.zigZag left (.incidence y)).Finds p.graph true true fun id =>
        ∃ a, p.graph.store.atom? id = some a ∧ ∀ x ∈ before ++ [y], x ∈ a.targets := by
      refine (hleft.zigZag (Plan.finds_incidence hstore y)).congr fun id => ?_
      constructor
      · rintro ⟨⟨a, ha, hbefore⟩, a', ha', hy⟩
        rw [ha] at ha'
        cases ha'
        refine ⟨a, ha, fun x hx => ?_⟩
        rcases List.mem_append.mp hx with hx | hx
        · exact hbefore x hx
        · rw [List.mem_singleton.mp hx]
          exact hy
      · rintro ⟨a, ha, hall⟩
        exact ⟨⟨a, ha, fun x hx => hall x (by simp [hx])⟩, a, ha, hall y (by simp)⟩
    exact (ih hstep).congr fun id => by simp

private theorem serves_linkPattern {pattern : List Target} (hstore : p.graph.store.Consistent)
    (hc : c.Plannable p.graph) (hnil : pattern.isEmpty = true → ∀ a, ¬ c.Holds p.graph a)
    (hholds : ∀ a, c.Holds p.graph a → ∀ id, .atom id ∈ pattern → id ∈ a.targets)
    (h : p.linkPattern c pattern = .ok plan) :
    plan.Serves p.graph (estimateLink p.graph.store pattern) (c.Matches p.graph) := by
  unfold linkPattern at h
  unfold estimateLink
  by_cases hempty : pattern.isEmpty = true
  · rw [if_pos hempty] at h ⊢
    cases h
    exact ⟨true, true, Plan.finds_empty.congr fun id => ⟨False.elim, fun ⟨a, _, hh⟩ => hnil hempty a hh⟩,
      Estimate.fits_sorted (.inl rfl)⟩
  · rw [if_neg hempty] at h ⊢
    obtain ⟨e', -, h⟩ := bind_eq_ok_iff.mp h
    rcases hconcrete : LinkPattern.concrete pattern with _ | ⟨id, ids⟩ <;> simp only [hconcrete] at h ⊢
    · exact ⟨true, true, finds_filteredFullScan hstore hc h, Estimate.fits_sorted (.inl rfl)⟩
    · cases h
      have hfirst := (Plan.finds_incidence hstore id).congr (Q := fun x =>
        ∃ a, p.graph.store.atom? x = some a ∧ ∀ y ∈ [id], y ∈ a.targets) fun x => by simp
      refine ⟨true, true, finds_tested (finds_incidences hstore ids hfirst) (fun _ => stored_of_exists) hc.decided ?_,
        Estimate.fits_sorted (.inl rfl)⟩
      rintro x ⟨a, ha, hh⟩
      refine ⟨a, ha, fun y hy => hholds a hh y (LinkPattern.mem_concrete.mp ?_)⟩
      rw [hconcrete]
      exact hy

/-! ### Walks -/

private theorem holds_reaches_iff (hstore : p.graph.store.Consistent) {w : Walk} {a : Atom} :
    (reaches p.graph a w).answer = .ok true ↔
      Reach (w.next p.graph.store) w.start a.id ∧ (w.includeStart = false → a.id ≠ w.start) := by
  obtain ⟨ids, hids, hmem⟩ := Walk.answer_reachable (w := w) hstore
  unfold reaches
  rw [Metered.answer_bind_of_ok hids, ← hmem]
  simp

private theorem serves_traversal {w v : Walk} (hstore : p.graph.store.Consistent)
    (hstart : ∃ a, p.graph.store.atom? w.start = some a)
    (hholds : ∀ a, c.Holds p.graph a ↔ (reaches p.graph a v).answer = .ok true)
    (hwalk : v = { w with order := v.order }) (ho : e.ordered = false) (hk : e.randomAccess = false) :
    (Plan.traversal w).Serves p.graph e (c.Matches p.graph) := by
  have hsame : v.next p.graph.store = w.next p.graph.store := by
    rw [hwalk]
    rfl
  have hstart' : v.start = w.start := by rw [hwalk]
  have hinclude : v.includeStart = w.includeStart := by rw [hwalk]
  refine ⟨false, false, (Plan.finds_traversal hstore w).congr fun id => ?_, by simp [ho], by simp [ho], by simp [hk]⟩
  constructor
  · rintro ⟨hreach, hne⟩
    obtain ⟨a, ha⟩ := Walk.stored_of_reach hstore hstart hreach
    refine ⟨a, ha, (hholds a).mpr ((holds_reaches_iff hstore).mpr ?_)⟩
    rw [hsame, hstart', hinclude, hstore.id_eq ha]
    exact ⟨hreach, hne⟩
  · rintro ⟨a, ha, hh⟩
    have h := (holds_reaches_iff hstore).mp ((hholds a).mp hh)
    rwa [hsame, hstart', hinclude, hstore.id_eq ha] at h

/-! ### All kinds -/

/-- The plan of a condition that is not made of others serves the atoms that match it. -/
theorem serves_leaf (hstore : p.graph.store.Consistent) (hc : c.Plannable p.graph) (hleaf : c.isCombinator = false)
    (he : c.estimate p.graph = .ok e) (h : p.planLeaf c = .ok plan) : plan.Serves p.graph e (c.Matches p.graph) := by
  cases c with
  | any =>
    cases he
    refine ⟨true, true, (finds_fullScan_of_ok hstore h).congr fun id => ?_, Estimate.fits_sorted (.inl rfl)⟩
    exact exists_congr fun a => by simp
  | nothing =>
    cases he
    cases h
    refine ⟨true, true, Plan.finds_empty.congr fun id => ?_, Estimate.fits_sorted (.inl rfl)⟩
    exact ⟨False.elim, fun ⟨a, _, hh⟩ => not_holds_nothing hh⟩
  | ofType ty =>
    obtain ⟨id, hid, h⟩ := bind_eq_ok_iff.mp h
    obtain ⟨id', -, he⟩ := bind_eq_ok_iff.mp he
    cases h
    cases he
    refine ⟨true, true, (Plan.finds_typeScan hstore id).congr fun x => ?_, Estimate.fits_sorted (.inl rfl)⟩
    refine exists_congr fun a => and_congr_right fun _ => ?_
    rw [Holds, eval_ofType hid]
    simp
  | ofTypePlus ty =>
    obtain ⟨id, hid, h⟩ := bind_eq_ok_iff.mp h
    obtain ⟨below, hbelow, h⟩ := bind_eq_ok_iff.mp h
    obtain ⟨id', -, he⟩ := bind_eq_ok_iff.mp he
    obtain ⟨below', -, he⟩ := bind_eq_ok_iff.mp he
    cases h
    cases he
    refine ⟨true, true, (finds_unionAll_typeScan hstore below).congr fun x => ?_, Estimate.fits_sorted (.inl rfl)⟩
    refine exists_congr fun a => and_congr_right fun _ => ?_
    rw [Holds, eval_ofTypePlus hid hbelow]
    simp
  | value literal op =>
    obtain ⟨e', -, h⟩ := bind_eq_ok_iff.mp h
    obtain ⟨u, hnull, he⟩ := bind_eq_ok_iff.mp he
    have hnull := notNull_of_rejectNull hnull
    rcases hty : p.graph.store.typeOfValue literal with _ | ty <;> simp only [hty] at h he
    · cases he
      exact ⟨true, true, finds_filteredFullScan hstore hc h, Estimate.fits_sorted (.inl rfl)⟩
    · refine serves_typedValue hstore hc (fun a => ?_) he h
      rw [Holds, eval_value_of_some hnull hty]
      simp
  | typedValue ty literal op =>
    obtain ⟨e', -, h⟩ := bind_eq_ok_iff.mp h
    obtain ⟨id, hid, h⟩ := bind_eq_ok_iff.mp h
    obtain ⟨u, hnull, he⟩ := bind_eq_ok_iff.mp he
    obtain ⟨id', hid', he⟩ := bind_eq_ok_iff.mp he
    rw [hid] at hid'
    cases hid'
    refine serves_typedValue hstore hc (fun a => ?_) he h
    rw [Holds, eval_typedValue (notNull_of_rejectNull hnull) hid]
    simp
  | indexedPart ty path index literal op =>
    cases he
    have hindex := hc.index ty path index literal op rfl
    have hview := hstore.partIndexed (ty, path) index (Store.mem_of_lookup hindex)
    rcases serves_indexedPart hstore (IndexHandle.conforms_of_view hview) h with ⟨o, k, hfinds, hfits⟩ | hserves
    · exact ⟨o, k, hfinds.congr fun id => mem_matching_iff_matches hstore hindex, hfits⟩
    · exact hserves
  | incident id =>
    cases h
    cases he
    refine ⟨true, true, (Plan.finds_incidence hstore id).congr fun x => ?_, Estimate.fits_sorted (.inl rfl)⟩
    refine exists_congr fun a => and_congr_right fun _ => ?_
    have hanswer : ((Condition.incident id).eval p.graph a).answer = .ok (a.targets.contains id) := rfl
    rw [Holds, hanswer]
    simp
  | link pattern =>
    cases he
    have hanswer : ∀ a : Atom, ((Condition.link pattern).eval p.graph a).answer =
      .ok (LinkPattern.matchesInAnyOrder pattern a.targets) := fun _ => rfl
    refine serves_linkPattern hstore hc (fun hempty a hh => ?_) (fun a hh id hid => ?_) h
    · rw [Holds, hanswer, LinkPattern.matchesInAnyOrder, hempty] at hh
      simp at hh
    · have hmatches := Except.ok.inj ((hanswer a).symm.trans hh)
      simp only [LinkPattern.matchesInAnyOrder, Bool.and_eq_true] at hmatches
      exact LinkPattern.mem_of_takeable hmatches.2 hid
  | orderedLink pattern =>
    cases he
    have hanswer : ∀ a : Atom, ((Condition.orderedLink pattern).eval p.graph a).answer =
      .ok (LinkPattern.matchesInOrder pattern a.targets) := fun _ => rfl
    refine serves_linkPattern hstore hc (fun hempty a hh => ?_) (fun a hh id hid => ?_) h
    · rw [Holds, hanswer, LinkPattern.matchesInOrder, hempty] at hh
      simp at hh
    · exact LinkPattern.mem_of_matchesInOrder (Except.ok.inj ((hanswer a).symm.trans hh)) hid
  | targetOf id =>
    obtain ⟨link, hlink, he⟩ := bind_eq_ok_iff.mp he
    cases h
    cases he
    have hfinds := Plan.finds_targetSet (g := p.graph) (Store.atom?_of_atom hlink)
    exact ⟨true, true, hfinds.congr fun x => mem_targets_iff_matches hstore hlink, Estimate.fits_sorted (.inl rfl)⟩
  | subsumes id =>
    cases h
    cases he
    exact serves_traversal hstore (hc.start id rfl) (fun _ => Iff.rfl) rfl rfl rfl
  | subsumed id =>
    cases h
    cases he
    exact serves_traversal hstore (hc.start id rfl) (fun _ => Iff.rfl) rfl rfl rfl
  | walk w =>
    cases h
    cases he
    exact serves_traversal hstore (hc.start w.start rfl) (fun _ => Iff.rfl) rfl rfl rfl
  | part path literal op =>
    cases he
    obtain ⟨e', -, h⟩ := bind_eq_ok_iff.mp h
    split at h
    · exact ⟨true, true, finds_filteredFullScan hstore hc h, Estimate.fits_sorted (.inr rfl)⟩
    · simp at h
  | predicate number =>
    cases he
    obtain ⟨e', -, h⟩ := bind_eq_ok_iff.mp h
    split at h
    · exact ⟨true, true, finds_filteredFullScan hstore hc h, Estimate.fits_sorted (.inr rfl)⟩
    · simp at h
  | not operand =>
    obtain ⟨inner, -, he⟩ := bind_eq_ok_iff.mp he
    obtain ⟨e', -, h⟩ := bind_eq_ok_iff.mp h
    split at h
    · refine ⟨true, true, finds_filteredFullScan hstore hc h, Estimate.fits_sorted (.inr ?_)⟩
      split at he
      · cases he
        rfl
      · simp at he
    · simp at h
  | and cs => simp [isCombinator] at hleaf
  | or cs => simp [isCombinator] at hleaf
  | map operand mapping => exact absurd rfl (hc.notMap operand mapping)

end Planner

end HyperQuery
