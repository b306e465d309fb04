import HyperQuery.Proofs.Condition.Testing
import HyperQuery.Proofs.Double.Sign

/-!
# Conditions without walks and mappings

A condition in which neither a walk nor a mapping occurs, at any depth, is decided by one atom alone
(`Condition.isPointwise`). These are exactly the conditions that estimates mark as testable (`isPredicate_of_isPointwise`,
`isPointwise_of_isPredicate`). Costs are added and averaged on the way up, and the cost `Estimate.notTestable` marks
everything else; no sum or average of costs gives this mark or hides it, because every cost of a test is at least zero,
whatever the user's predicates ask for.
-/

namespace HyperQuery

/-! ### Sums and averages of costs -/

namespace Estimate

variable {a b : Double} {e : Estimate} {es : List Estimate} {total : Nat} {step : Estimate → Estimate → Estimate}

theorem isNonnegative_addCost (ha : a.isNonnegative = true) (hb : b.isNonnegative = true) :
    (addCost a b).isNonnegative = true := by
  rw [addCost, ha, hb]
  exact Double.isNonnegative_add ha hb

theorem addCost_notTestable (h : a = notTestable ∨ b = notTestable) : addCost a b = notTestable := by
  rw [addCost, if_neg]
  rcases h with rfl | rfl <;> simp [isNonnegative_notTestable]

theorem cost_meet (d e : Estimate) : (meet d e).cost = addCost d.cost e.cost := rfl

theorem cost_join (d e : Estimate) : (join d e).cost = addCost d.cost e.cost := rfl

section Fold

variable (hcost : ∀ a b, (step a b).cost = addCost a.cost b.cost)

include hcost

private theorem isPredicate_foldl (he : e.isPredicate = true) (hes : ∀ d ∈ es, d.isPredicate = true) :
    (es.foldl step e).isPredicate = true := by
  induction es generalizing e with
  | nil => exact he
  | cons d es ih =>
    have hstep : (step e d).isPredicate = true := by
      rw [isPredicate, hcost]
      exact isNonnegative_addCost he (hes d (by simp))
    exact ih hstep fun d hd => hes d (by simp [hd])

/-- One cost that marks something that cannot be tested marks the sum. -/
private theorem cost_foldl (h : e.cost = notTestable ∨ ∃ d ∈ es, d.cost = notTestable) :
    (es.foldl step e).cost = notTestable := by
  induction es generalizing e with
  | nil => exact h.resolve_right (by simp)
  | cons d es ih =>
    refine ih ?_
    rcases h with he | ⟨d', hd', hmark⟩
    · exact .inl ((hcost e d).trans (addCost_notTestable (.inl he)))
    · rcases List.mem_cons.mp hd' with rfl | hd'
      · exact .inl ((hcost e d').trans (addCost_notTestable (.inr hmark)))
      · exact .inr ⟨d', hd', hmark⟩

end Fold

theorem isPredicate_conjunction (h : ∀ d ∈ es, d.isPredicate = true) : (conjunction total es).isPredicate = true := by
  have hzero : Double.zero.isNonnegative = true := by decide
  cases es with
  | nil => exact hzero
  | cons d es => exact isPredicate_foldl cost_meet hzero h

theorem cost_conjunction {d : Estimate} (hd : d ∈ es) (hmark : d.cost = notTestable) :
    (conjunction total es).cost = notTestable := by
  cases es with
  | nil => simp at hd
  | cons d' es => exact cost_foldl cost_meet (.inr ⟨d, hd, hmark⟩)

theorem isPredicate_disjunction (h : ∀ d ∈ es, d.isPredicate = true) (hlength : es.length < 2 ^ 64) :
    (disjunction total es).isPredicate = true := by
  have hzero : Double.zero.isNonnegative = true := by decide
  cases es with
  | nil => exact hzero
  | cons d es =>
    have hsum := isPredicate_foldl (e := ⟨true, true, 0, 0, 0, .zero, true⟩) cost_join hzero h
    rw [isPredicate, disjunction]
    · dsimp only
      rw [if_pos hsum]
      exact Double.isNonnegative_div_ofNat hsum (by simp) hlength
    · simp

theorem cost_disjunction {d : Estimate} (hd : d ∈ es) (hmark : d.cost = notTestable) :
    (disjunction total es).cost = notTestable := by
  cases es with
  | nil => simp at hd
  | cons d' es =>
    have hsum := cost_foldl (e := ⟨true, true, 0, 0, 0, .zero, true⟩) cost_join (.inr ⟨d, hd, hmark⟩)
    rw [disjunction]
    · dsimp only
      rw [if_neg (by rw [isPredicate, hsum, isNonnegative_notTestable]; simp), hsum]
    · simp

end Estimate

namespace Condition

variable {g : Graph} {s : Store} {c : Condition} {cs : List Condition} {e : Estimate}

mutual

/-- Whether neither a walk nor a mapping occurs in the condition, at any depth. -/
def isPointwise : Condition → Bool
  | .and conjuncts => arePointwise conjuncts
  | .or arms => arePointwise arms
  | .not operand => isPointwise operand
  | .map _ _ | .walk _ | .subsumes _ | .subsumed _ => false
  | _ => true

/-- Whether neither a walk nor a mapping occurs in any of the conditions. -/
def arePointwise : List Condition → Bool
  | [] => true
  | c :: rest => isPointwise c && arePointwise rest

end

theorem arePointwise_eq_all : arePointwise cs = cs.all isPointwise := by
  induction cs with
  | nil => rfl
  | cons c cs ih => rw [arePointwise, ih, List.all_cons]

mutual

/-- The arms of each disjunction in the condition can be counted with 64 bits. -/
def Sized : Condition → Prop
  | .and conjuncts => AllSized conjuncts
  | .or arms => arms.length < 2 ^ 64 ∧ AllSized arms
  | .not operand => Sized operand
  | .map operand _ => Sized operand
  | _ => True

/-- The arms of each disjunction in any of the conditions can be counted with 64 bits. -/
def AllSized : List Condition → Prop
  | [] => True
  | c :: rest => Sized c ∧ AllSized rest

end

theorem allSized_iff : AllSized cs ↔ ∀ c ∈ cs, c.Sized := by
  induction cs with
  | nil => simp [AllSized]
  | cons c cs ih => rw [AllSized, ih, List.forall_mem_cons]

/-! ### Constraints -/

private theorem cost_typedValue {ty : AtomId} {literal : Value} {op : Comparison}
    (he : estimateTypedValue s ty literal op = .ok e) : e.cost = Estimate.valueCost := by
  obtain ⟨index?, -, he⟩ := bind_eq_ok_iff.mp he
  cases index? with
  | none =>
    cases he
    rfl
  | some index =>
    dsimp only at he
    split at he
    · cases he
      rfl
    · cases he
      rfl

private theorem cost_indexedPart {index : IndexHandle} {literal : Value} {op : Comparison} :
    (estimateIndexedPart s index literal op).cost = Estimate.partCost := by
  unfold estimateIndexedPart
  split
  · split <;> rfl
  · split <;> rfl

private theorem cost_link {pattern : List Target} : (estimateLink s pattern).cost = Estimate.linkCost := by
  unfold estimateLink
  split
  · rfl
  · split <;> rfl

/-- The costs of tests are fixed for each kind of constraint, and those of predicates are not negative. -/
theorem isPredicate_of_constraint (hleaf : c.isCompound = false) (hpoint : c.isPointwise = true)
    (he : c.estimate g = .ok e) : e.isPredicate = true := by
  have hconst : ∀ {cost : Double}, e.cost = cost → cost.isNonnegative = true → e.isPredicate = true :=
    fun hcost h => (congrArg Double.isNonnegative hcost).trans h
  have hzero : Double.zero.isNonnegative = true := by decide
  rw [estimate_of_not_isCompound hleaf] at he
  cases c with
  | any | nothing =>
    cases he
    exact hzero
  | incident id =>
    cases he
    exact Double.isNonnegative_nearest
  | ofType ty | targetOf ty =>
    obtain ⟨_, -, he⟩ := bind_eq_ok_iff.mp he
    cases he
    exact Double.isNonnegative_nearest
  | ofTypePlus ty =>
    obtain ⟨_, -, he⟩ := bind_eq_ok_iff.mp he
    obtain ⟨_, -, he⟩ := bind_eq_ok_iff.mp he
    cases he
    exact Double.isNonnegative_nearest
  | value literal op =>
    obtain ⟨_, -, he⟩ := bind_eq_ok_iff.mp he
    split at he
    · exact hconst (cost_typedValue he) Double.isNonnegative_nearest
    · cases he
      exact Double.isNonnegative_nearest
  | typedValue ty literal op =>
    obtain ⟨_, -, he⟩ := bind_eq_ok_iff.mp he
    obtain ⟨_, -, he⟩ := bind_eq_ok_iff.mp he
    exact hconst (cost_typedValue he) Double.isNonnegative_nearest
  | part path literal op =>
    cases he
    exact Double.isNonnegative_nearest
  | indexedPart ty path index literal op =>
    cases he
    exact hconst cost_indexedPart Double.isNonnegative_nearest
  | link pattern | orderedLink pattern =>
    cases he
    exact hconst cost_link Double.isNonnegative_nearest
  | predicate number =>
    cases he
    exact Double.isNonnegative_clampNonnegative _
  | subsumes id | subsumed id => simp [isPointwise] at hpoint
  | walk w => simp [isPointwise] at hpoint
  | and cs | or cs => simp [isCompound] at hleaf
  | not operand => simp [isCompound] at hleaf
  | map operand mapping => simp [isCompound] at hleaf

/-! ### All conditions -/

theorem isPredicate_of_isPointwise (hsized : c.Sized) (hpoint : c.isPointwise = true) (he : c.estimate g = .ok e) :
    e.isPredicate = true := by
  induction c using treeInduction generalizing e with
  | and cs ih =>
    obtain ⟨es, hes, he⟩ := bind_eq_ok_iff.mp he
    cases he
    rw [isPointwise, arePointwise_eq_all, List.all_eq_true] at hpoint
    refine Estimate.isPredicate_conjunction fun d hd => ?_
    obtain ⟨c, hc, hce⟩ := exists_mem_of_estimates hes hd
    exact ih c hc (allSized_iff.mp hsized c hc) (hpoint c hc) hce
  | or cs ih =>
    obtain ⟨es, hes, he⟩ := bind_eq_ok_iff.mp he
    cases he
    obtain ⟨hlength, hsized⟩ := hsized
    rw [isPointwise, arePointwise_eq_all, List.all_eq_true] at hpoint
    refine Estimate.isPredicate_disjunction (fun d hd => ?_) ((estimates_eq_ok_iff.mp hes).length_eq ▸ hlength)
    obtain ⟨c, hc, hce⟩ := exists_mem_of_estimates hes hd
    exact ih c hc (allSized_iff.mp hsized c hc) (hpoint c hc) hce
  | not operand ih =>
    obtain ⟨inner, -, htestable, rfl⟩ := estimate_not he
    exact htestable
  | map operand mapping _ => simp [isPointwise] at hpoint
  | leaf c hleaf => exact isPredicate_of_constraint hleaf hpoint he

theorem cost_of_not_isPointwise (hpoint : c.isPointwise = false) (he : c.estimate g = .ok e) :
    e.cost = Estimate.notTestable := by
  induction c using treeInduction generalizing e with
  | and cs ih =>
    obtain ⟨es, hes, he⟩ := bind_eq_ok_iff.mp he
    cases he
    rw [isPointwise, arePointwise_eq_all, List.all_eq_false] at hpoint
    obtain ⟨c, hc, hnot⟩ := hpoint
    obtain ⟨d, hd, hce⟩ := exists_estimate_of_mem hes hc
    exact Estimate.cost_conjunction hd (ih c hc (Bool.eq_false_iff.mpr hnot) hce)
  | or cs ih =>
    obtain ⟨es, hes, he⟩ := bind_eq_ok_iff.mp he
    cases he
    rw [isPointwise, arePointwise_eq_all, List.all_eq_false] at hpoint
    obtain ⟨c, hc, hnot⟩ := hpoint
    obtain ⟨d, hd, hce⟩ := exists_estimate_of_mem hes hc
    exact Estimate.cost_disjunction hd (ih c hc (Bool.eq_false_iff.mpr hnot) hce)
  | not operand ih =>
    -- the negation of something that cannot be tested has no estimate
    obtain ⟨inner, hinner, htestable, -⟩ := estimate_not he
    rw [Estimate.isPredicate, ih hpoint hinner, Estimate.isNonnegative_notTestable] at htestable
    simp at htestable
  | map operand mapping _ =>
    obtain ⟨inner, -, he⟩ := bind_eq_ok_iff.mp he
    cases he
    rfl
  | leaf c hleaf =>
    cases c with
    | walk w | subsumes id | subsumed id =>
      cases he
      rfl
    | and cs | or cs => simp [isCompound] at hleaf
    | not operand => simp [isCompound] at hleaf
    | map operand mapping => simp [isCompound] at hleaf
    | _ => simp [isPointwise] at hpoint

/-- What is marked as testable has neither walks nor mappings in it. -/
theorem isPointwise_of_isPredicate (he : c.estimate g = .ok e) (h : e.isPredicate = true) : c.isPointwise = true := by
  by_contra hnot
  rw [Estimate.isPredicate, cost_of_not_isPointwise (Bool.eq_false_iff.mpr hnot) he,
    Estimate.isNonnegative_notTestable] at h
  simp at h

end Condition

end HyperQuery
