import HyperQuery.Proofs.Condition.Results
import HyperQuery.Proofs.Condition.Testing
import HyperQuery.Proofs.Cursor.Reading
import HyperQuery.Proofs.Plan.Finds

/-!
# What plans read

Users supply functions that may fail, walks may start anywhere and collected sets may be limited, so a plan need not find
all the atoms that match. What can be said of every plan is which handles its cursor reads (`Plan.Reads`) and that it
fails with few errors only (`Graph.ReadError`); some plans do not fail at all (`Plan.ListsOnly`). Every node of a plan
reads what its parts call for, and the steps of a filter narrow that down (`FilterStep.Narrow`).
-/

namespace HyperQuery

variable {g : Graph}

/-! ### Errors -/

/-- Some function supplied by a user fails with the error on the store. -/
inductive Catalog.Raises (catalog : Catalog) (s : Store) : QueryError → Prop
  | predicate {number : Nat} {a : Atom} {e : QueryError} (h : (catalog.predicate number).test s a = .error e) :
    Raises catalog s e
  | mapping {number : Nat} {id : AtomId} {e : QueryError} (h : (catalog.mapping number).apply s id = .error e) :
    Raises catalog s e

/-- What opening and reading a query may fail with: a handle of no stored atom, a set that is too large to be collected,
and the errors of functions supplied by users. -/
inductive Graph.ReadError (g : Graph) : QueryError → Prop
  | missing (id : AtomId) : ReadError g (.missingAtom id)
  | oversized (size limit : Nat) : ReadError g (.oversizedSet size limit)
  | raised {e : QueryError} (h : g.catalog.Raises g.store e) : ReadError g e

theorem Store.missingAtom_of_atom {s : Store} {id : AtomId} {e : QueryError} (h : s.atom id = .error e) :
    e = .missingAtom id := by
  unfold Store.atom at h
  split at h
  · simp at h
  · exact (Except.error.inj h).symm

theorem Graph.readError_of_apply {mapping : Mapping} {id : AtomId} {e : QueryError} (h : mapping.apply g id = .error e) :
    g.ReadError e := by
  have hatom : ∀ {α : Type} (f : Atom → α), (f <$> g.store.atom id) = .error e → g.ReadError e := by
    intro α f hf
    rcases ha : g.store.atom id with e' | a
    · rw [ha] at hf
      cases hf
      rw [Store.missingAtom_of_atom ha]
      exact .missing id
    · rw [ha] at hf
      cases hf
  cases mapping with
  | target position => exact hatom (fun a => a.targets[position]?) h
  | typeOf => exact hatom (fun a => some a.type) h
  | custom number => exact .raised (.mapping h)

namespace Condition

variable {c : Condition} {e : Estimate} {id : AtomId}

/-- Testing a testable condition on a handle fails with such an error only. -/
theorem readError_of_satisfies {error : QueryError} (hstore : g.store.Consistent) (he : c.estimate g = .ok e)
    (htestable : e.isPredicate = true) (h : (c.satisfies g id).answer = .error error) : g.ReadError error := by
  have hloaded : (do eval g (← g.store.atom id) c : Metered Bool).answer = .error error → g.ReadError error := by
    intro h
    rcases Metered.answer_bind_eq_error_iff.mp h with h | ⟨a, -, h⟩
    · rw [Store.missingAtom_of_atom h]
      exact .missing id
    · obtain ⟨number, hpredicate⟩ := exists_predicate_of_error hstore he htestable h
      exact .raised (.predicate hpredicate)
  cases c with
  | any => simp [satisfies] at h
  | nothing => simp [satisfies] at h
  | _ => exact hloaded h

/-- A leaf that passes the test on a handle has it as a result. -/
theorem results_of_satisfies (hleaf : c.isCombinator = false) (h : (c.satisfies g id).answer = .ok true) :
    c.Results g id := by
  have hloaded : (do eval g (← g.store.atom id) c : Metered Bool).answer = .ok true → c.Results g id := by
    intro h
    obtain ⟨a, ha, h⟩ := Metered.answer_bind_eq_ok_iff.mp h
    exact .holds hleaf (Store.atom?_of_atom ha) h
  cases c with
  | any => exact .any
  | nothing => simp [satisfies] at h
  | _ => exact hloaded h

theorem results_of_matches (hleaf : c.isCombinator = false) (h : c.Matches g id) : c.Results g id := by
  obtain ⟨a, ha, hh⟩ := h
  exact .holds hleaf ha hh

end Condition

namespace Plan

/-! ### Plans that do not depend on the limit -/

/-- Whatever the limit on collected sets, the cursor of the plan lists handles with the property only. -/
def ListsOnly (g : Graph) (plan : Plan) (ordered seekable : Bool) (P : AtomId → Prop) : Prop :=
  ∃ items, (∀ limit, (plan.blueprint limit).Lists g items ordered seekable) ∧ ∀ id ∈ items, P id

variable {plan left right base : Plan} {ordered seekable ordered' seekable' : Bool} {P Q : AtomId → Prop}

theorem ListsOnly.zigZag (hl : left.ListsOnly g true true P) (hr : right.ListsOnly g true true Q) :
    (Plan.zigZag left right).ListsOnly g true true fun id => P id ∧ Q id := by
  obtain ⟨as, hl, hP⟩ := hl
  obtain ⟨bs, hr, hQ⟩ := hr
  refine ⟨_, fun limit => (hl limit).zigZag (hr limit), fun id hid => ?_⟩
  obtain ⟨has, hbs⟩ := AtomSet.mem_common.mp hid
  exact ⟨hP id has, hQ id hbs⟩

theorem ListsOnly.sortedMerge (hl : left.ListsOnly g true seekable P) (hr : right.ListsOnly g true seekable' Q) :
    (Plan.sortedMerge left right).ListsOnly g true false fun id => P id ∧ Q id := by
  obtain ⟨as, hl, hP⟩ := hl
  obtain ⟨bs, hr, hQ⟩ := hr
  refine ⟨_, fun limit => (hl limit).sortedMerge (hr limit), fun id hid => ?_⟩
  obtain ⟨has, hbs⟩ := AtomSet.mem_common.mp hid
  exact ⟨hP id has, hQ id hbs⟩

/-- Whether the sides of an intersection can be sought is of no account to it. -/
theorem listsOnly_sortedMerge (hl : ∃ k, left.ListsOnly g true k P) (hr : ∃ k, right.ListsOnly g true k Q) :
    ∃ k, (Plan.sortedMerge left right).ListsOnly g true k fun id => P id ∧ Q id := by
  obtain ⟨_, hl⟩ := hl
  obtain ⟨_, hr⟩ := hr
  exact ⟨false, hl.sortedMerge hr⟩

/-- Nothing in the plan is limited in size. -/
def Unlimited (plan : Plan) : Prop := ∀ limit, plan.blueprint limit = plan.blueprint none

theorem Unlimited.filtered {c : Condition} {cost : Double} (h : base.Unlimited) :
    (Plan.filtered base [.predicate c cost]).Unlimited := by
  intro limit
  show Blueprint.filter (base.blueprint limit) _ = Blueprint.filter (base.blueprint none) _
  rw [h limit]
  rfl

theorem unlimited_unionAll_typeScan {types : List AtomId} : (Plan.unionAll (types.map .typeScan)).Unlimited := by
  cases types with
  | nil => exact fun _ => rfl
  | cons ty types =>
    show ((types.map Plan.typeScan).foldl Plan.union (.typeScan ty)).Unlimited
    refine List.foldlRecOn (motive := Unlimited) _ _ (fun _ => rfl) fun left hleft scan hscan limit => ?_
    obtain ⟨ty', -, rfl⟩ := List.mem_map.mp hscan
    show Blueprint.union (left.blueprint limit) _ = Blueprint.union (left.blueprint none) _
    rw [hleft limit]
    rfl

/-! ### Plans that may fail -/

/-- Whatever the limit on collected sets, the cursor of the plan reads the items, unless it fails with an error that
reading may fail with. -/
def Reads (g : Graph) (plan : Plan) (items : List AtomId) (ordered : Bool) : Prop :=
  ∀ limit, (plan.blueprint limit).Reads g g.ReadError items ordered

/-- The plan reads handles with the property only. -/
def ReadsOnly (g : Graph) (plan : Plan) (P : AtomId → Prop) : Prop :=
  ∃ items ordered, plan.Reads g items ordered ∧ ∀ id ∈ items, P id

theorem ListsOnly.readsOnly (h : plan.ListsOnly g ordered seekable P) : plan.ReadsOnly g P := by
  obtain ⟨items, hlists, hitems⟩ := h
  exact ⟨items, ordered, fun limit => (hlists limit).reads, hitems⟩

theorem ReadsOnly.mono (h : plan.ReadsOnly g P) (hPQ : ∀ id, P id → Q id) : plan.ReadsOnly g Q := by
  obtain ⟨items, ordered, hreads, hitems⟩ := h
  exact ⟨items, ordered, hreads, fun id hid => hPQ id (hitems id hid)⟩

theorem ReadsOnly.map {mapping : Mapping} (h : base.ReadsOnly g P) :
    (Plan.map base mapping).ReadsOnly g fun id => ∃ x, P x ∧ mapping.apply g x = .ok (some id) := by
  obtain ⟨items, ordered, hreads, hitems⟩ := h
  refine ⟨_, false, fun limit => (hreads limit).map fun _ _ => Graph.readError_of_apply, fun id hid => ?_⟩
  obtain ⟨x, hx, himage⟩ := List.mem_filterMap.mp hid
  exact ⟨x, hitems x hx, Mapping.image_eq_some_iff.mp himage⟩

theorem Reads.union {as bs : List AtomId} (hl : left.Reads g as ordered) (hr : right.Reads g bs ordered') :
    (Plan.union left right).Reads g (UnionState.listed (ordered && ordered') as bs) (ordered && ordered') :=
  fun limit => (hl limit).union (hr limit)

/-- Each of the plans reads the items at its place. -/
def ReadEach (g : Graph) : List Plan → List (List AtomId) → Prop :=
  List.Forall₂ fun plan items => ∃ ordered, plan.Reads g items ordered

private theorem reads_foldl_union {plans : List Plan} {parts : List (List AtomId)} {items : List AtomId}
    (h : ReadEach g plans parts) (hleft : left.Reads g items ordered) :
    ∃ all ordered, (plans.foldl .union left).Reads g all ordered ∧
      (∀ id, id ∈ all ↔ id ∈ items ∨ ∃ part ∈ parts, id ∈ part) ∧ ∀ part ∈ items :: parts, part.Nodup → all.Nodup := by
  induction h generalizing left items ordered with
  | nil => exact ⟨items, ordered, hleft, by simp, by simp⟩
  | cons hplan _ ih =>
    obtain ⟨ordered', hplan⟩ := hplan
    obtain ⟨all, o, hall, hmem, hnodup⟩ := ih (hleft.union hplan)
    refine ⟨all, o, hall, fun id => ?_, fun part _ _ => hnodup _ List.mem_cons_self UnionState.nodup_listed⟩
    rw [hmem, UnionState.mem_listed]
    simp [or_assoc]

/-- The union of plans reads what one of them reads, and repeats nothing if one of them does not. -/
theorem ReadEach.unionAll {plans : List Plan} {parts : List (List AtomId)} (h : ReadEach g plans parts) :
    ∃ all ordered, (Plan.unionAll plans).Reads g all ordered ∧ (∀ id, id ∈ all ↔ ∃ part ∈ parts, id ∈ part) ∧
      ∀ part ∈ parts, part.Nodup → all.Nodup := by
  cases h with
  | nil =>
    obtain ⟨items, hlists, hitems⟩ := finds_empty (g := g)
    exact ⟨items, true, fun _ => hlists.reads, fun id => by simp [hitems], by simp⟩
  | cons hplan hrest =>
    obtain ⟨ordered, hplan⟩ := hplan
    obtain ⟨all, o, hall, hmem, hnodup⟩ := reads_foldl_union hrest hplan
    exact ⟨all, o, hall, fun id => by simp [hmem], hnodup⟩

end Plan

/-! ### Steps of filters that may fail -/

namespace FilterStep

/-- Whatever the limit on collected sets, what passes the tests of the steps has the property, unless a test fails with
an error that reading may fail with. -/
def Narrow (g : Graph) (steps : List FilterStep) (P : AtomId → Prop) : Prop :=
  ∃ property : AtomId → Bool, (∀ id, property id = true → P id) ∧
    ∀ limit, Check.Attempt g g.ReadError (checks limit steps) property

/-- The step narrows down to a property in front of any other steps. -/
def NarrowsTo (g : Graph) (step : FilterStep) (Q : AtomId → Prop) : Prop :=
  ∀ steps P, Narrow g steps P → Narrow g (step :: steps) fun id => Q id ∧ P id

variable {P Q : AtomId → Prop} {plan : Plan} {cost : Double}

theorem narrow_nil : Narrow g [] fun _ => True := ⟨fun _ => true, by simp, fun _ => Check.attempt_nil⟩

theorem Narrow.mono {steps : List FilterStep} (h : Narrow g steps P) (hPQ : ∀ id, P id → Q id) : Narrow g steps Q := by
  obtain ⟨property, hproperty, htests⟩ := h
  exact ⟨property, fun id hid => hPQ id (hproperty id hid), htests⟩

theorem narrowsTo_predicate {c : Condition}
    (herror : ∀ id e, (c.satisfies g id).answer = .error e → g.ReadError e)
    (hpasses : ∀ id, (c.satisfies g id).answer = .ok true → Q id) : (predicate c cost).NarrowsTo g Q := by
  rintro steps P ⟨property, hproperty, htests⟩
  refine ⟨_, fun id hid => ?_, fun limit => (htests limit).point herror⟩
  obtain ⟨hpass, hid⟩ := Bool.and_eq_true_iff.mp hid
  exact ⟨hpasses id (Tester.passes_iff.mp hpass), hproperty id hid⟩

private theorem holds_of_property_and {items : List AtomId} {property : AtomId → Bool} (hitems : ∀ id ∈ items, Q id)
    (hproperty : ∀ id, property id = true → P id) (id : AtomId) (hid : (items.contains id && property id) = true) :
    Q id ∧ P id := by
  rw [Bool.and_eq_true, List.contains_iff_mem] at hid
  exact ⟨hitems id hid.1, hproperty id hid.2⟩

theorem narrowsTo_membership (h : plan.ListsOnly g false true Q) : (membership plan cost).NarrowsTo g Q := by
  rintro steps P ⟨property, hproperty, htests⟩
  obtain ⟨items, hlists, hitems⟩ := h
  exact ⟨_, holds_of_property_and hitems hproperty, fun limit => (htests limit).member (hlists limit)⟩

theorem narrowsTo_materialized (h : plan.ReadsOnly g Q) : (materialized plan).NarrowsTo g Q := by
  rintro steps P ⟨property, hproperty, htests⟩
  obtain ⟨items, ordered, hreads, hitems⟩ := h
  exact ⟨_, holds_of_property_and hitems hproperty, fun limit => (htests limit).gather .oversized limit (hreads limit)⟩

end FilterStep

/-- What the steps of a filter let through of what the base reads. -/
theorem Plan.Reads.filtered {base : Plan} {steps : List FilterStep} {items : List AtomId} {ordered : Bool}
    {property : AtomId → Bool} (hbase : base.Reads g items ordered)
    (htests : ∀ limit, Check.Attempt g g.ReadError (FilterStep.checks limit steps) property) :
    (Plan.filtered base steps).Reads g (items.filter property) ordered := by
  cases steps with
  | nil =>
    -- without steps everything passes
    have hall : ∀ id, property id = true := by
      intro id
      obtain ⟨I, hattempts, hI⟩ := htests none
      rcases hattempts id hI with ⟨t, htest, -⟩ | ⟨e, t, htest, -⟩
      · exact (Except.ok.inj htest.1).symm
      · exact nomatch htest.1
    rw [List.filter_eq_self.mpr fun id _ => hall id]
    exact hbase
  | cons step steps => exact fun limit => (hbase limit).filter (htests limit)

/-- The steps of a filter narrow down what the base reads. -/
theorem Plan.ReadsOnly.filtered {base : Plan} {steps : List FilterStep} {P Q : AtomId → Prop}
    (hbase : base.ReadsOnly g P) (hsteps : FilterStep.Narrow g steps Q) :
    (Plan.filtered base steps).ReadsOnly g fun id => P id ∧ Q id := by
  obtain ⟨items, ordered, hreads, hitems⟩ := hbase
  obtain ⟨property, hproperty, htests⟩ := hsteps
  refine ⟨_, ordered, hreads.filtered htests, fun id hid => ?_⟩
  obtain ⟨hid, hpass⟩ := List.mem_filter.mp hid
  exact ⟨hitems id hid, hproperty id hpass⟩

end HyperQuery
