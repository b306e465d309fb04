import Mathlib.Data.List.Forall2
import HyperQuery.Proofs.Condition.Contradiction
import HyperQuery.Proofs.Cursor.Blueprint
import HyperQuery.Proofs.Store.Lookup
import HyperQuery.Query

/-!
# What plans find

A plan finds the handles with a property if the cursor it opens, without a limit on collected sets, lists exactly these
(`Plan.Finds`). Every node of a plan finds what its parts call for, and the steps of a filter decide what they stand
for (`FilterStep.Decide`).
-/

namespace HyperQuery

variable {g : Graph}

/-- The handle is that of a stored atom which satisfies the condition. -/
def Condition.Matches (g : Graph) (c : Condition) (id : AtomId) : Prop :=
  ∃ a, g.store.atom? id = some a ∧ c.Holds g a

namespace Plan

/-- The cursor of the plan lists exactly the handles with the property. -/
def Finds (g : Graph) (plan : Plan) (ordered seekable : Bool) (P : AtomId → Prop) : Prop :=
  ∃ items, (plan.blueprint none).Lists g items ordered seekable ∧ ∀ id, id ∈ items ↔ P id

variable {plan left right : Plan} {ordered seekable ordered' seekable' : Bool} {P Q : AtomId → Prop}

theorem Finds.congr (h : plan.Finds g ordered seekable P) (hPQ : ∀ id, P id ↔ Q id) :
    plan.Finds g ordered seekable Q := by
  obtain ⟨items, hlists, hmem⟩ := h
  exact ⟨items, hlists, fun id => (hmem id).trans (hPQ id)⟩

/-! ### Reading the graph -/

theorem finds_empty : Plan.empty.Finds g true true fun _ => False :=
  have htake : (Reading.nothing.take g.store).answer = .ok .empty := rfl
  ⟨[], Blueprint.lists_reading htake List.nodup_nil fun _ => .nil, by simp⟩

theorem finds_fullScan (h : g.store.Consistent) :
    Plan.fullScan.Finds g true true fun id => ∃ a, g.store.atom? id = some a :=
  ⟨_, Blueprint.lists_sorted rfl, fun _ => AtomSet.mem_ofList.trans (Store.mem_atomIds h)⟩

theorem finds_typeScan (h : g.store.Consistent) (ty : AtomId) :
    (Plan.typeScan ty).Finds g true true fun id => ∃ a, g.store.atom? id = some a ∧ a.type = ty :=
  ⟨_, Blueprint.lists_sorted rfl, fun _ => AtomSet.mem_ofList.trans (Store.mem_typeIds h)⟩

theorem finds_incidence (h : g.store.Consistent) (x : AtomId) :
    (Plan.incidence x).Finds g true true fun id => ∃ a, g.store.atom? id = some a ∧ x ∈ a.targets :=
  ⟨_, Blueprint.lists_sorted rfl, fun _ => AtomSet.mem_ofList.trans (Store.mem_incidentIds h)⟩

theorem finds_targetSet {link : AtomId} {a : Atom} (ha : g.store.atom? link = some a) :
    (Plan.targetSet link).Finds g true true fun id => id ∈ a.targets := by
  have hatom : (Metered.ofExcept (g.store.atom link)).answer = .ok a := by simp [Store.atom, ha]
  exact ⟨_, Blueprint.lists_sorted (Metered.answer_bind_of_ok hatom), fun _ => AtomSet.mem_ofList⟩

theorem finds_traversal (h : g.store.Consistent) (w : Walk) :
    (Plan.traversal w).Finds g false false fun id =>
      Reach (w.next g.store) w.start id ∧ (w.includeStart = false → id ≠ w.start) := Blueprint.Lists.walk h w

/-- A look-up lists its handles in order, unless the index is hashed; then they can be probed. -/
theorem finds_indexLookup {index : IndexHandle} {op : Comparison} (key : Value)
    (hrange : op.isRange = true → index.isOrdered = true ∧ index.view = none) :
    (Plan.indexLookup index key op).Finds g (index.kind != .hashed) true fun id =>
      id ∈ index.matching g.store op key := by
  have htake : ((Reading.lookup index key op).take g.store).answer = _ :=
    congrArg Metered.answer (IndexHandle.findRange_eq_opened hrange)
  by_cases hkind : index.kind = .hashed
  · have hsnap : ((Reading.lookup index key op).take g.store).answer =
        .ok (.hashed (index.matching g.store op key)) := by rw [htake, IndexHandle.answer_opened, if_pos hkind]
    have hlists := Blueprint.lists_reading hsnap (AtomSet.nodup_eraseDups _) (by simp [Snapshot.hashed])
    rw [hkind]
    exact ⟨_, hlists, fun _ => List.mem_eraseDups⟩
  · have hsnap : ((Reading.lookup index key op).take g.store).answer =
        .ok (.sorted (index.matching g.store op key)) := by rw [htake, IndexHandle.answer_opened, if_neg hkind]
    have hsorted : (index.kind != .hashed) = true := bne_iff_ne.mpr hkind
    rw [hsorted]
    exact ⟨_, Blueprint.lists_sorted hsnap, fun _ => AtomSet.mem_ofList⟩

/-! ### Combining plans -/

theorem Finds.zigZag (hl : left.Finds g true true P) (hr : right.Finds g true true Q) :
    (Plan.zigZag left right).Finds g true true fun id => P id ∧ Q id := by
  obtain ⟨as, hl, hP⟩ := hl
  obtain ⟨bs, hr, hQ⟩ := hr
  exact ⟨_, hl.zigZag hr, fun id => by rw [AtomSet.mem_common, hP, hQ]⟩

theorem Finds.sortedMerge (hl : left.Finds g true seekable P) (hr : right.Finds g true seekable' Q) :
    (Plan.sortedMerge left right).Finds g true false fun id => P id ∧ Q id := by
  obtain ⟨as, hl, hP⟩ := hl
  obtain ⟨bs, hr, hQ⟩ := hr
  exact ⟨_, hl.sortedMerge hr, fun id => by rw [AtomSet.mem_common, hP, hQ]⟩

theorem Finds.union (hl : left.Finds g ordered seekable P) (hr : right.Finds g ordered' seekable' Q) :
    (Plan.union left right).Finds g (ordered && ordered') (ordered && ordered' && (seekable && seekable'))
      fun id => P id ∨ Q id := by
  obtain ⟨as, hl, hP⟩ := hl
  obtain ⟨bs, hr, hQ⟩ := hr
  obtain ⟨items, hlists, hmem⟩ := hl.union hr
  exact ⟨items, hlists, fun id => by rw [hmem, hP, hQ]⟩

/-- Each of the plans finds the property at its place, with flags of a kind. -/
def FindEach (g : Graph) (F : Bool → Bool → Prop) : List Plan → List (AtomId → Prop) → Prop :=
  List.Forall₂ fun plan P => ∃ ordered seekable, F ordered seekable ∧ plan.Finds g ordered seekable P

section UnionAll

variable {F : Bool → Bool → Prop} {plans : List Plan} {Ps : List (AtomId → Prop)}
  (hF : ∀ o k o' k', F o k → F o' k' → F (o && o') (o && o' && (k && k')))

include hF in
private theorem finds_foldl_union (h : FindEach g F plans Ps) (hflags : F ordered seekable)
    (hleft : left.Finds g ordered seekable P) :
    ∃ o k, F o k ∧ (plans.foldl .union left).Finds g o k fun id => P id ∨ ∃ Q ∈ Ps, Q id := by
  induction h generalizing left P ordered seekable with
  | nil => exact ⟨_, _, hflags, hleft.congr fun id => by simp⟩
  | cons hplan _ ih =>
    obtain ⟨o', k', hflags', hplan⟩ := hplan
    obtain ⟨o, k, hok, hfinds⟩ := ih (hF _ _ _ _ hflags hflags') (hleft.union hplan)
    exact ⟨o, k, hok, hfinds.congr fun id => by simp [or_assoc]⟩

include hF in
/-- The union of plans finds what one of them finds. -/
theorem FindEach.unionAll (h : FindEach g F plans Ps) (hempty : F true true) :
    ∃ o k, F o k ∧ (Plan.unionAll plans).Finds g o k fun id => ∃ Q ∈ Ps, Q id := by
  cases h with
  | nil => exact ⟨true, true, hempty, finds_empty.congr fun id => by simp⟩
  | cons hplan hrest =>
    obtain ⟨o', k', hflags, hplan⟩ := hplan
    obtain ⟨o, k, hok, hfinds⟩ := finds_foldl_union hF hrest hflags hplan
    exact ⟨o, k, hok, hfinds.congr fun id => by simp⟩

end UnionAll

end Plan

/-! ### Steps of filters -/

namespace FilterStep

/-- The tests that the steps make decide the property of stored atoms. -/
def Decide (g : Graph) (steps : List FilterStep) (P : AtomId → Prop) : Prop :=
  ∃ property : AtomId → Bool, (∀ id, (∃ a, g.store.atom? id = some a) → (property id = true ↔ P id)) ∧
    Check.Decide g (checks none steps) (fun id => ∃ a, g.store.atom? id = some a) property

variable {steps : List FilterStep} {P Q : AtomId → Prop}

theorem decide_nil : Decide g [] fun _ => True := ⟨fun _ => true, by simp, Check.decide_nil⟩

theorem Decide.congr (h : Decide g steps P) (hPQ : ∀ id, P id ↔ Q id) : Decide g steps Q := by
  obtain ⟨property, hproperty, htests⟩ := h
  exact ⟨property, fun id hid => (hproperty id hid).trans (hPQ id), htests⟩

/-- The step decides a property in front of any other steps. -/
def Tests (g : Graph) (step : FilterStep) (Q : AtomId → Prop) : Prop :=
  ∀ {steps P}, Decide g steps P → Decide g (step :: steps) fun id => Q id ∧ P id

theorem tests_predicate {c : Condition} {cost : Double} (hc : ∀ id a, g.store.atom? id = some a → c.Decided g a) :
    (predicate c cost).Tests g (c.Matches g) := by
  rintro steps P ⟨property, hproperty, h⟩
  have hanswer : ∀ id, (∃ a, g.store.atom? id = some a) → ∃ b, (c.satisfies g id).answer = .ok b := by
    rintro id ⟨a, ha⟩
    obtain ⟨b, hb⟩ := hc id a ha
    exact ⟨b, (Condition.eval_of_satisfies ha).mpr hb⟩
  classical
  refine ⟨fun id => decide (c.Matches g id) && property id, fun id hid => ?_, Check.Decide.point (fun id hid => ?_) h⟩
  · rw [Bool.and_eq_true, decide_eq_true_eq, hproperty id hid]
  · obtain ⟨a, ha⟩ := hid
    obtain ⟨b, hb⟩ := hanswer id ⟨a, ha⟩
    have hmatches : c.Matches g id ↔ b = true := by
      constructor
      · rintro ⟨a', ha', hholds⟩
        have hb' := (Condition.eval_of_satisfies ha').mpr hholds
        exact Except.ok.inj (hb.symm.trans hb')
      · rintro rfl
        exact ⟨a, ha, (Condition.eval_of_satisfies ha).mp hb⟩
    rw [hb]
    cases b <;> simp [hmatches]

/-- Being among the items, and a property besides. -/
theorem contains_and_iff {items : List AtomId} {property : AtomId → Bool} {id : AtomId} {p q : Prop}
    (hitems : id ∈ items ↔ q) (hproperty : property id = true ↔ p) :
    (items.contains id && property id) = true ↔ q ∧ p := by
  rw [Bool.and_eq_true, List.contains_iff_mem, hitems, hproperty]

theorem tests_membership {plan : Plan} {cost : Double} (h : plan.Finds g false true Q) :
    (membership plan cost).Tests g Q := by
  rintro steps P ⟨property, hproperty, hsteps⟩
  obtain ⟨items, hlists, hitems⟩ := h
  exact ⟨_, fun id hid => contains_and_iff (hitems id) (hproperty id hid), Check.Decide.member hlists hsteps⟩

theorem tests_materialized {plan : Plan} {ordered seekable : Bool} (h : plan.Finds g ordered seekable Q) :
    (materialized plan).Tests g Q := by
  rintro steps P ⟨property, hproperty, hsteps⟩
  obtain ⟨items, hlists, hitems⟩ := h
  exact ⟨_, fun id hid => contains_and_iff (hitems id) (hproperty id hid), Check.Decide.gather hlists hsteps⟩

end FilterStep

/-- The steps of a filter narrow down what the base finds. -/
theorem Plan.Finds.filtered {base : Plan} {steps : List FilterStep} {ordered seekable : Bool} {P Q : AtomId → Prop}
    (hbase : base.Finds g ordered seekable P) (hP : ∀ id, P id → ∃ a, g.store.atom? id = some a)
    (hsteps : FilterStep.Decide g steps Q) :
    (Plan.filtered base steps).Finds g ordered (if steps.isEmpty then seekable else ordered && seekable)
      fun id => P id ∧ Q id := by
  obtain ⟨items, hlists, hitems⟩ := hbase
  obtain ⟨property, hproperty, I, htests, hI⟩ := hsteps
  have hstored : ∀ id ∈ items, ∃ a, g.store.atom? id = some a := fun id hid => hP id ((hitems id).mp hid)
  have hmem : ∀ id, id ∈ items.filter property ↔ P id ∧ Q id := by
    intro id
    rw [List.mem_filter, hitems]
    exact ⟨fun ⟨hid, hq⟩ => ⟨hid, (hproperty id (hP id hid)).mp hq⟩,
      fun ⟨hid, hq⟩ => ⟨hid, (hproperty id (hP id hid)).mpr hq⟩⟩
  cases steps with
  | nil =>
    -- without steps everything passes
    have hall : ∀ id ∈ items, property id = true := by
      intro id hid
      obtain ⟨t, htest, -⟩ := htests (hstored id hid) hI
      exact (Except.ok.inj htest.1).symm
    rw [List.filter_eq_self.mpr hall] at hmem
    exact ⟨items, hlists, hmem⟩
  | cons step steps =>
    have hchecks : Check.Decide g (FilterStep.checks none (step :: steps)) (· ∈ items) property :=
      ⟨I, fun hid ht => htests (hstored _ hid) ht, hI⟩
    exact ⟨_, hlists.filter hchecks, hmem⟩

end HyperQuery
