import HyperQuery.Proofs.Estimate

/-!
# Conditions that can be tested

An estimate says by a cost that is not negative that a condition can be tested on one atom (`Estimate.isPredicate`). It
can be trusted: testing such a condition fails only where a predicate supplied by a user does, and with the error of the
predicate (`exists_predicate_of_error`). Constraints other than predicates do not fail at all once they can be estimated
(`decided_of_estimate`).

By their estimates conditions that are no combinations are of three shapes: the results of a constraint come in order or
can be sought (`shape_of_constraint`), a test comes with no more than the number of all atoms (`shape_of_isTest`), and a
walk or a mapping can neither be sought nor tested (`shape_of_walk`, `shape_of_map`).
-/

namespace HyperQuery

theorem Double.isNonnegative_clampNonnegative (x : Double) : x.clampNonnegative.isNonnegative = true := by
  unfold clampNonnegative
  split
  · rename_i hx
    rw [Bool.and_eq_true, decide_eq_true_eq] at hx
    rw [isNonnegative, Bool.and_eq_true, decide_eq_true_eq]
    exact ⟨hx.1, Int.le_of_lt hx.2⟩
  · decide +kernel

namespace Estimate

variable {e : Estimate} {es : List Estimate} {total : Nat}

/-- Nothing is known about the results but how many there are at most. -/
structure Indirect (e : Estimate) : Prop where
  unordered : e.ordered = false
  unsought : e.randomAccess = false
  lower : e.lower = 0

theorem Indirect.not_direct (h : e.Indirect) : ¬ (e.ordered = true ∨ e.randomAccess = true) := by
  simp [h.unordered, h.unsought]

theorem isNonnegative_notTestable : notTestable.isNonnegative = false := by decide +kernel

theorem isNonnegative_of_addCost {a b : Double} (h : (addCost a b).isNonnegative = true) :
    a.isNonnegative = true ∧ b.isNonnegative = true := by
  unfold addCost at h
  split at h
  · rename_i hboth
    exact Bool.and_eq_true_iff.mp hboth
  · rw [isNonnegative_notTestable] at h
    simp at h

/-- A sum of costs marks as testable only if all costs do. -/
private theorem isPredicate_of_foldl {step : Estimate → Estimate → Estimate}
    (hcost : ∀ a b, (step a b).cost = addCost a.cost b.cost) (h : (es.foldl step e).isPredicate = true) :
    e.isPredicate = true ∧ ∀ d ∈ es, d.isPredicate = true := by
  induction es generalizing e with
  | nil => exact ⟨h, by simp⟩
  | cons d es ih =>
    obtain ⟨hstep, hes⟩ := ih h
    rw [isPredicate, hcost] at hstep
    obtain ⟨he, hd⟩ := isNonnegative_of_addCost hstep
    exact ⟨he, List.forall_mem_cons.mpr ⟨hd, hes⟩⟩

theorem isPredicate_of_conjunction (h : (conjunction total es).isPredicate = true) : ∀ d ∈ es, d.isPredicate = true := by
  cases es with
  | nil => simp
  | cons d es => exact (isPredicate_of_foldl (fun _ _ => rfl) h).2

theorem isPredicate_of_disjunction (h : (disjunction total es).isPredicate = true) : ∀ d ∈ es, d.isPredicate = true := by
  cases es with
  | nil => simp
  | cons d es =>
    have hcost : ∀ a b : Estimate, (join a b).cost = addCost a.cost b.cost := fun _ _ => rfl
    refine (isPredicate_of_foldl (e := ⟨true, true, 0, 0, 0, .zero, true⟩) hcost ?_).2
    -- the sum is averaged only if it marks as testable itself
    by_contra hsum
    change (disjunction total (d :: es)).cost.isNonnegative = true at h
    simp only [disjunction] at h
    rw [if_neg hsum] at h
    exact hsum h

end Estimate

namespace Condition

variable {g : Graph} {a : Atom} {c : Condition} {cs : List Condition} {e : Estimate} {error : QueryError}

/-- A constraint that can be estimated is decided by every atom, unless it is a predicate supplied by a user. -/
theorem decided_of_estimate (hstore : g.store.Consistent) (hleaf : c.isCompound = false)
    (hpredicate : ∀ number, c ≠ .predicate number) (he : c.estimate g = .ok e) : c.Decided g a := by
  have hreaches : ∀ w : Walk, ∃ b, (reaches g a w).answer = .ok b := by
    intro w
    obtain ⟨ids, hids, -⟩ := Walk.answer_reachable (w := w) hstore
    exact ⟨_, Metered.answer_bind_of_ok hids⟩
  rw [estimate_of_not_isCompound hleaf] at he
  cases c with
  | any => exact holds_any.decided
  | nothing => exact decided_nothing
  | ofType ty =>
    obtain ⟨id, hid, -⟩ := bind_eq_ok_iff.mp he
    exact ⟨_, eval_ofType hid⟩
  | ofTypePlus ty =>
    obtain ⟨id, hid, he⟩ := bind_eq_ok_iff.mp he
    obtain ⟨below, hbelow, -⟩ := bind_eq_ok_iff.mp he
    exact ⟨_, eval_ofTypePlus hid hbelow⟩
  | value literal op =>
    obtain ⟨_, hnull, -⟩ := bind_eq_ok_iff.mp he
    have hnull := notNull_of_rejectNull hnull
    rcases hty : g.store.typeOfValue literal with _ | ty
    · exact ⟨_, eval_value_of_none hnull hty⟩
    · exact ⟨_, eval_value_of_some hnull hty⟩
  | typedValue ty literal op =>
    obtain ⟨_, hnull, he⟩ := bind_eq_ok_iff.mp he
    obtain ⟨id, hid, -⟩ := bind_eq_ok_iff.mp he
    exact ⟨_, eval_typedValue (notNull_of_rejectNull hnull) hid⟩
  | targetOf id =>
    obtain ⟨link, hlink, -⟩ := bind_eq_ok_iff.mp he
    exact ⟨_, Metered.answer_bind_of_ok hlink⟩
  | part path literal op => exact ⟨_, eval_part⟩
  | indexedPart ty path index literal op => exact ⟨_, eval_indexedPart⟩
  | incident id | link pattern | orderedLink pattern => exact ⟨_, rfl⟩
  | walk w => exact hreaches w
  | subsumes id | subsumed id => exact hreaches _
  | predicate number => exact absurd rfl (hpredicate number)
  | and cs | or cs => simp [isCompound] at hleaf
  | not operand => simp [isCompound] at hleaf
  | map operand mapping => simp [isCompound] at hleaf

theorem exists_of_evalAll_error (h : (evalAll g a cs).answer = .error error) :
    ∃ c ∈ cs, (c.eval g a).answer = .error error := by
  induction cs with
  | nil => simp [evalAll] at h
  | cons c cs ih =>
    rcases Metered.answer_bind_eq_error_iff.mp h with hc | ⟨b, -, hrest⟩
    · exact ⟨c, by simp, hc⟩
    · cases b with
      | true =>
        obtain ⟨d, hd, herror⟩ := ih hrest
        exact ⟨d, by simp [hd], herror⟩
      | false => simp at hrest

theorem exists_of_evalAny_error (h : (evalAny g a cs).answer = .error error) :
    ∃ c ∈ cs, (c.eval g a).answer = .error error := by
  induction cs with
  | nil => simp [evalAny] at h
  | cons c cs ih =>
    rcases Metered.answer_bind_eq_error_iff.mp h with hc | ⟨b, -, hrest⟩
    · exact ⟨c, by simp, hc⟩
    · cases b with
      | true => simp at hrest
      | false =>
        obtain ⟨d, hd, herror⟩ := ih hrest
        exact ⟨d, by simp [hd], herror⟩

/-- Where testing a testable condition fails, a predicate supplied by a user fails with that error. -/
theorem exists_predicate_of_error (hstore : g.store.Consistent) (he : c.estimate g = .ok e)
    (htestable : e.isPredicate = true) (h : (c.eval g a).answer = .error error) :
    ∃ number, (g.catalog.predicate number).test g.store a = .error error := by
  induction c using treeInduction generalizing e with
  | and cs ih =>
    obtain ⟨es, hes, he⟩ := bind_eq_ok_iff.mp he
    cases he
    rw [eval] at h
    obtain ⟨c, hc, herror⟩ := exists_of_evalAll_error h
    obtain ⟨d, hd, hce⟩ := exists_estimate_of_mem hes hc
    exact ih c hc hce (Estimate.isPredicate_of_conjunction htestable d hd) herror
  | or cs ih =>
    obtain ⟨es, hes, he⟩ := bind_eq_ok_iff.mp he
    cases he
    rw [eval] at h
    obtain ⟨c, hc, herror⟩ := exists_of_evalAny_error h
    obtain ⟨d, hd, hce⟩ := exists_estimate_of_mem hes hc
    exact ih c hc hce (Estimate.isPredicate_of_disjunction htestable d hd) herror
  | not operand ih =>
    obtain ⟨inner, hinner, hpredicate, -⟩ := estimate_not he
    rw [eval] at h
    rcases Metered.answer_bind_eq_error_iff.mp h with h | ⟨b, -, h⟩
    · exact ih hinner hpredicate h
    · simp at h
  | map operand mapping _ =>
    obtain ⟨inner, -, he⟩ := bind_eq_ok_iff.mp he
    cases he
    rw [Estimate.isPredicate, Estimate.isNonnegative_notTestable] at htestable
    simp at htestable
  | leaf c hleaf =>
    by_cases hpredicate : ∃ number, c = .predicate number
    · obtain ⟨number, rfl⟩ := hpredicate
      exact ⟨number, h⟩
    · obtain ⟨b, hb⟩ := decided_of_estimate (a := a) hstore hleaf (fun number hc => hpredicate ⟨number, hc⟩) he
      rw [hb] at h
      simp at h

/-! ### Direct results, tests and walks -/

/-- The estimate of the condition says that its results come in order or can be sought. -/
def Direct (g : Graph) (c : Condition) : Prop :=
  ∃ e, c.estimate g = .ok e ∧ (e.ordered = true ∨ e.randomAccess = true)

/-- The condition is one that can only be tested. -/
def isTest : Condition → Bool
  | .part _ _ _ | .predicate _ | .not _ => true
  | _ => false

theorem isCompound_of_not_isTest (hleaf : c.isCombinator = false) (htest : ¬ c.isTest = true)
    (hmap : ∀ operand mapping, c ≠ .map operand mapping) : c.isCompound = false := by
  cases c with
  | and cs | or cs => simp [isCombinator] at hleaf
  | not operand => exact absurd rfl htest
  | map operand mapping => exact absurd rfl (hmap operand mapping)
  | _ => rfl

private theorem shape_typedValue {s : Store} {ty : AtomId} {literal : Value} {op : Comparison}
    (he : estimateTypedValue s ty literal op = .ok e) : e.ordered = true ∧ e.predicateOnly = false := by
  obtain ⟨index?, -, he⟩ := bind_eq_ok_iff.mp he
  cases index? with
  | some index =>
    cases hop : op == .eq with
    | true =>
      simp only [hop, if_true] at he
      cases he
      exact ⟨rfl, rfl⟩
    | false =>
      simp only [hop, Bool.false_eq_true, if_false] at he
      cases he
      exact ⟨rfl, rfl⟩
  | none =>
    cases he
    exact ⟨rfl, rfl⟩

private theorem shape_indexedPart {s : Store} {index : IndexHandle} {literal : Value} {op : Comparison} :
    ((estimateIndexedPart s index literal op).ordered = true ∨
      (estimateIndexedPart s index literal op).randomAccess = true) ∧
      (estimateIndexedPart s index literal op).predicateOnly = false := by
  unfold estimateIndexedPart
  split
  · split
    · exact ⟨.inl rfl, rfl⟩
    · exact ⟨.inr rfl, rfl⟩
  · split
    · exact ⟨.inl rfl, rfl⟩
    · exact ⟨.inl rfl, rfl⟩

private theorem shape_link {s : Store} {pattern : List Target} :
    (estimateLink s pattern).ordered = true ∧ (estimateLink s pattern).predicateOnly = false := by
  unfold estimateLink
  split
  · exact ⟨rfl, rfl⟩
  · split
    · exact ⟨rfl, rfl⟩
    · exact ⟨rfl, rfl⟩

/-- A constraint that is neither a test nor a walk has direct results. -/
theorem shape_of_constraint (hleaf : c.isCompound = false) (htest : c.isTest = false) (hwalk : c.walkStart? = none)
    (he : c.estimate g = .ok e) : (e.ordered = true ∨ e.randomAccess = true) ∧ e.predicateOnly = false := by
  have hordered : e.ordered = true ∧ e.predicateOnly = false →
      (e.ordered = true ∨ e.randomAccess = true) ∧ e.predicateOnly = false := fun h => ⟨.inl h.1, h.2⟩
  rw [estimate_of_not_isCompound hleaf] at he
  cases c with
  | any | nothing | incident id =>
    cases he
    exact hordered ⟨rfl, rfl⟩
  | ofType ty | targetOf ty =>
    obtain ⟨_, -, he⟩ := bind_eq_ok_iff.mp he
    cases he
    exact hordered ⟨rfl, rfl⟩
  | ofTypePlus ty =>
    obtain ⟨_, -, he⟩ := bind_eq_ok_iff.mp he
    obtain ⟨_, -, he⟩ := bind_eq_ok_iff.mp he
    cases he
    exact hordered ⟨rfl, rfl⟩
  | value literal op =>
    obtain ⟨_, -, he⟩ := bind_eq_ok_iff.mp he
    split at he
    · exact hordered (shape_typedValue he)
    · cases he
      exact hordered ⟨rfl, rfl⟩
  | typedValue ty literal op =>
    obtain ⟨_, -, he⟩ := bind_eq_ok_iff.mp he
    obtain ⟨_, -, he⟩ := bind_eq_ok_iff.mp he
    exact hordered (shape_typedValue he)
  | indexedPart ty path index literal op =>
    cases he
    exact shape_indexedPart
  | link pattern | orderedLink pattern =>
    cases he
    exact hordered shape_link
  | part path literal op => simp [isTest] at htest
  | predicate number => simp [isTest] at htest
  | subsumes id | subsumed id => simp [walkStart?] at hwalk
  | walk w => simp [walkStart?] at hwalk
  | and cs | or cs => simp [isCompound] at hleaf
  | not operand => simp [isCompound] at hleaf
  | map operand mapping => simp [isCompound] at hleaf

/-- A test can be made on one atom, and there is no other use for it. -/
theorem shape_of_isTest (htest : c.isTest = true) (he : c.estimate g = .ok e) : e.isPredicate = true ∧ e.Indirect := by
  cases c with
  | part path literal op =>
    cases he
    have hcost : Estimate.partCost.isNonnegative = true := by decide +kernel
    exact ⟨hcost, rfl, rfl, rfl⟩
  | predicate number =>
    cases he
    exact ⟨Double.isNonnegative_clampNonnegative _, rfl, rfl, rfl⟩
  | not operand =>
    obtain ⟨inner, -, hinner, rfl⟩ := estimate_not he
    exact ⟨hinner, rfl, rfl, rfl⟩
  | _ => simp [isTest] at htest

theorem shape_of_walk {id : AtomId} (hwalk : c.walkStart? = some id) (he : c.estimate g = .ok e) :
    e.predicateOnly = false ∧ e.Indirect ∧ e.upper = g.store.atomCount := by
  cases c with
  | walk w =>
    cases he
    exact ⟨rfl, ⟨rfl, rfl, rfl⟩, rfl⟩
  | subsumes id | subsumed id =>
    cases he
    exact ⟨rfl, ⟨rfl, rfl, rfl⟩, rfl⟩
  | _ => simp [walkStart?] at hwalk

theorem shape_of_map {operand : Condition} {mapping : Mapping} (he : (Condition.map operand mapping).estimate g = .ok e) :
    e.predicateOnly = false ∧ e.Indirect := by
  obtain ⟨inner, -, he⟩ := bind_eq_ok_iff.mp he
  cases he
  exact ⟨rfl, rfl, rfl, rfl⟩

/-- The results of a leaf are direct, or nothing is known about them but that it can be tested if it can only be
tested. -/
theorem leaf_cases (hleaf : c.isCombinator = false) (he : c.estimate g = .ok e) :
    (c.isCompound = false ∧ (e.ordered = true ∨ e.randomAccess = true) ∧ e.predicateOnly = false) ∨
      (e.Indirect ∧ (e.predicateOnly = true → e.isPredicate = true)) := by
  have hunused : e.predicateOnly = false ∧ e.Indirect → e.Indirect ∧ (e.predicateOnly = true → e.isPredicate = true) :=
    fun h => ⟨h.2, fun honly => by simp [h.1] at honly⟩
  by_cases htest : c.isTest = true
  · obtain ⟨htestable, hindirect⟩ := shape_of_isTest htest he
    exact .inr ⟨hindirect, fun _ => htestable⟩
  · rcases hwalk : c.walkStart? with _ | id
    · rcases map_cases c with ⟨operand, mapping, rfl⟩ | hmap
      · exact .inr (hunused (shape_of_map he))
      · have hcompound : c.isCompound = false := isCompound_of_not_isTest hleaf htest hmap
        exact .inl ⟨hcompound, shape_of_constraint hcompound (Bool.eq_false_iff.mpr htest) hwalk he⟩
    · obtain ⟨hmore, hindirect, -⟩ := shape_of_walk hwalk he
      exact .inr (hunused ⟨hmore, hindirect⟩)

/-- What can only be tested can be tested. -/
theorem isPredicate_of_predicateOnly (hleaf : c.isCombinator = false) (he : c.estimate g = .ok e)
    (honly : e.predicateOnly = true) : e.isPredicate = true := by
  rcases leaf_cases hleaf he with ⟨-, -, hnot⟩ | ⟨-, htestable⟩
  · simp [hnot] at honly
  · exact htestable honly

/-- Only constraints have direct results. -/
theorem isCompound_of_direct (hleaf : c.isCombinator = false) (h : c.Direct g) : c.isCompound = false := by
  obtain ⟨e, he, hdirect⟩ := h
  rcases leaf_cases hleaf he with ⟨hcompound, -⟩ | ⟨hindirect, -⟩
  · exact hcompound
  · exact absurd hdirect hindirect.not_direct

end Condition

end HyperQuery
