import HyperQuery.Proofs.Plan.Narrowing
import HyperQuery.Proofs.Query
import HyperQuery.Proofs.Store.Changes

/-!
# Narrowing a query

Further conjuncts leave fewer results, and a candidate can be tested against a condition that can be tested. Still a condition
that compiles without full scans may be refused once it is narrowed by such a condition. This happens exactly if a leaf of the
prepared condition has results that can only be had by reading every atom (`Planner.compile_narrowed_iff`), as a comparison
of values has for which no type is known, even next to conjuncts with few results (`Planner.exists_refused_narrowing`).
-/

namespace HyperQuery

/-! ### Only planning refuses full scans -/

section Spares

variable {α β : Type} {s : Store} {g : Graph} {c : Condition}

/-- The computation does not fail because full scans are disabled. -/
def Spares (x : Except QueryError α) : Prop := ∀ text, x ≠ .error (.plan (.fullScanDisabled text))

theorem Spares.ok {a : α} : Spares (.ok a) := by simp [Spares]

theorem Spares.bind {x : Except QueryError α} {k : α → Except QueryError β} (h : Spares x) (hk : ∀ a, Spares (k a)) :
    Spares (x >>= k) := by
  intro text
  rcases x with e | a
  · exact fun herror => h text (congrArg Except.error (Except.error.inj herror))
  · exact hk a text

theorem Spares.mapM {xs : List α} {f : α → Except QueryError β} (h : ∀ x, Spares (f x)) : Spares (xs.mapM f) := by
  induction xs with
  | nil => exact .ok
  | cons x xs ih =>
    rw [List.mapM_cons]
    exact (h x).bind fun _ => ih.bind fun _ => .ok

private theorem spares_resolve {ty : TypeRef} : Spares (ty.resolve s) := by
  cases ty with
  | handle id => exact .ok
  | named name =>
    show Spares (s.typeHandle name)
    unfold Store.typeHandle
    split <;> simp [Spares]

private theorem spares_descriptor {ty : AtomId} : Spares (s.descriptor ty) := by
  unfold Store.descriptor
  split <;> simp [Spares]

private theorem spares_atom {id : AtomId} : Spares (s.atom id) := by
  unfold Store.atom
  split <;> simp [Spares]

private theorem spares_closure {next : AtomId → Metered (List AtomId)} (hnext : ∀ id, Spares (next id).answer) (fuel : Nat)
    (seen pending : List AtomId) : Spares (closure next fuel seen pending).answer := by
  induction fuel generalizing seen pending with
  | zero => exact .ok
  | succ fuel ih =>
    cases pending with
    | nil => exact .ok
    | cons id pending =>
      rw [closure, Metered.answer_bind]
      exact (hnext id).bind fun found => ih _ _

private theorem spares_subtypes {ty : AtomId} : Spares (s.subtypes ty) :=
  spares_descriptor.bind fun _ => (spares_closure (fun _ => (Spares.mapM fun _ => spares_atom).bind fun _ => .ok) _ _ _).bind
    fun _ => .ok

/-! #### Preparing -/

private theorem spares_addLeaf {k : Conjunction} : Spares (k.addLeaf s c) := by
  unfold Conjunction.addLeaf
  split
  · exact .ok
  · exact .ok
  · exact spares_resolve.bind fun _ => .ok
  · split
    · exact .ok
    · exact spares_resolve.bind fun _ => .ok
  · split
    · exact .ok
    · exact .ok
  · exact .ok
  · exact .ok

private theorem spares_toCondition {k : Conjunction} : Spares (k.toCondition s) := by
  refine Spares.bind ?_ fun _ => .ok
  unfold Conjunction.typeAndValues
  split
  · exact .ok
  · split
    · exact spares_descriptor.bind fun _ => .ok
    · exact .ok

theorem spares_simplify : Spares (Condition.simplify s c) := by
  suffices h : Spares (Condition.simplify s c) ∧ ∀ k, Spares (Condition.absorb s k c) from h.1
  induction c using Condition.combinatorInduction with
  | and cs ih =>
    have hall : ∀ k, Spares (Condition.absorbAll s k cs) := by
      induction cs with
      | nil => exact fun _ => .ok
      | cons c cs ihcs =>
        intro k
        refine ((ih c (by simp)).2 k).bind fun r => ?_
        cases r with
        | none => exact .ok
        | some k => exact ihcs (fun d hd => ih d (by simp [hd])) k
    refine ⟨(hall .empty).bind fun r => ?_, hall⟩
    cases r with
    | none => exact .ok
    | some k =>
      show Spares (if k.isContradictory = true then _ else _)
      split
      · exact .ok
      · exact spares_toCondition
  | or cs ih =>
    have harms : Spares (Condition.simplifyArms s cs) := by
      induction cs with
      | nil => exact .ok
      | cons c cs ihcs => exact (ih c (by simp)).1.bind fun _ => (ihcs fun d hd => ih d (by simp [hd])).bind fun _ => .ok
    refine ⟨harms.bind fun _ => .ok, fun k => harms.bind fun ds => ?_⟩
    split <;> exact .ok
  | leaf c hleaf =>
    refine ⟨?_, fun k => ?_⟩
    · rw [Condition.simplify_of_not_isCombinator hleaf]
      exact .ok
    · rw [Condition.absorb_of_not_isCombinator hleaf]
      exact spares_addLeaf

/-! #### Estimating -/

private theorem spares_estimateTypedValue {ty : AtomId} {literal : Value} {op : Comparison} :
    Spares (Condition.estimateTypedValue s ty literal op) := by
  refine Spares.bind ?_ fun index? => ?_
  · refine spares_descriptor.bind fun d => ?_
    split <;> exact .ok
  · split
    · split <;> exact .ok
    · exact .ok

private theorem spares_rejectNull {literal : Value} : Spares (Condition.rejectNull literal) := by
  unfold Condition.rejectNull
  split <;> simp [Spares, QueryError.unsupported]

private theorem spares_estimateLeaf : Spares (Condition.estimateLeaf g c) := by
  unfold Condition.estimateLeaf
  split
  · exact .ok
  · exact spares_resolve.bind fun _ => .ok
  · exact spares_resolve.bind fun _ => spares_subtypes.bind fun _ => .ok
  · refine spares_rejectNull.bind fun _ => ?_
    split
    · exact spares_estimateTypedValue
    · exact .ok
  · exact spares_rejectNull.bind fun _ => spares_resolve.bind fun _ => spares_estimateTypedValue
  · exact .ok
  · exact .ok
  · exact .ok
  · exact .ok
  · exact .ok
  · exact spares_atom.bind fun _ => .ok
  · exact .ok
  · exact .ok
  · exact .ok
  · exact .ok
  · exact .ok

theorem spares_estimate : Spares (c.estimate g) := by
  have hestimates : ∀ cs : List Condition, (∀ c ∈ cs, Spares (c.estimate g)) → Spares (Condition.estimates g cs) := by
    intro cs ih
    induction cs with
    | nil => exact .ok
    | cons c cs ihcs => exact (ih c (by simp)).bind fun _ => (ihcs fun d hd => ih d (by simp [hd])).bind fun _ => .ok
  induction c using Condition.treeInduction with
  | and cs ih => exact (hestimates cs ih).bind fun _ => .ok
  | or cs ih => exact (hestimates cs ih).bind fun _ => .ok
  | not operand ih =>
    refine ih.bind fun inner => ?_
    split <;> simp [Spares, pure, Except.pure]
  | map operand mapping ih => exact ih.bind fun _ => .ok
  | leaf c hleaf =>
    rw [Condition.estimate_of_not_isCompound hleaf]
    exact spares_estimateLeaf

end Spares

/-! ### Narrowing -/

namespace Planner

variable {p : Planner} {c narrow : Condition} {q : CompiledQuery} {e : Estimate}

/-- Narrowing may need a full scan. Without full scans, a condition that compiles is refused after it has been narrowed by one
that can be tested if and only if the two together can be prepared and estimated, and have a leaf then that reads every
atom. -/
theorem compile_narrowed_iff (hstrict : p.config.allowFullScan = false) (hcompile : (p.compile c).answer = .ok q)
    (he : narrow.estimate p.graph = .ok e) (htestable : e.isPredicate = true) :
    (∃ text, (p.compile (.and [c, narrow])).answer = .error (.plan (.fullScanDisabled text))) ↔
      ∃ d ed, p.prepare (.and [c, narrow]) = .ok d ∧ d.estimate p.graph = .ok ed ∧
        ∃ l ∈ d.leaves, l.readsEverything p.graph.store = true := by
  obtain ⟨hprepare, hestimate, hplan, -⟩ := answer_compile_eq_ok_iff.mp hcompile
  have hsettles : ∀ d ed, p.prepare (.and [c, narrow]) = .ok d → d.estimate p.graph = .ok ed →
      Settles (fun e => ∃ text, e = .plan (.fullScanDisabled text))
        (∀ l ∈ d.leaves, l.readsEverything p.graph.store = false) (p.plan d) := fun d ed hd hed =>
    settles_plan_narrowed hstrict hprepare hestimate hplan he htestable hd hed fun text => ⟨text, rfl⟩
  constructor
  · rintro ⟨text, h⟩
    rcases Metered.answer_bind_eq_error_iff.mp h with h | ⟨d, hd, h⟩
    · exact absurd h (spares_simplify text)
    rcases Metered.answer_bind_eq_error_iff.mp h with h | ⟨ed, hed, h⟩
    · exact absurd h (spares_estimate text)
    refine ⟨d, ed, hd, hed, ?_⟩
    by_contra hnone
    obtain ⟨plan, hok⟩ := (hsettles d ed hd hed).succeeds fun l hl =>
      Bool.eq_false_iff.mpr fun hreads => hnone ⟨l, hl, hreads⟩
    rcases Metered.answer_bind_eq_error_iff.mp h with h | ⟨plan, -, h⟩
    · cases hok.symm.trans h
    · cases h
  · rintro ⟨d, ed, hd, hed, l, hl, hreads⟩
    obtain ⟨_, herror, text, rfl⟩ := (hsettles d ed hd hed).fails fun hnot => by simp [hnot l hl] at hreads
    refine ⟨text, Metered.answer_bind_eq_error_iff.mpr (.inr ⟨d, hd, ?_⟩)⟩
    exact Metered.answer_bind_eq_error_iff.mpr (.inr ⟨ed, hed, Metered.answer_bind_eq_error_iff.mpr (.inl herror)⟩)

/-- Links at a number, narrowed to those of a type that link to any atom, or to the number itself. -/
theorem compile_narrowed_iff_links :
    let p : Planner := ⟨.strict, .ofStore (Store.afterChanges [.defineType "Number" .none [], .addAtom 3 (.int 7),
      .addLink 3 [4] (.int 5), .addLink 3 [4] (.int 6)])⟩
    let c : Condition := .incident 4
    let narrow : Condition := .or [.and [.link [.any], .ofType (.handle 3)], .not (.link [.atom 4])]
    ∃ q e, p.config.allowFullScan = false ∧ (p.compile c).answer = .ok q ∧ narrow.estimate p.graph = .ok e ∧
      e.isPredicate = true ∧
      ((∃ text, (p.compile (.and [c, narrow])).answer = .error (.plan (.fullScanDisabled text))) ↔
        ∃ d ed, p.prepare (.and [c, narrow]) = .ok d ∧ d.estimate p.graph = .ok ed ∧
          ∃ l ∈ d.leaves, l.readsEverything p.graph.store = true) := by
  intro p c narrow
  have hok : (p.compile c).answer.isOk = true := by decide +kernel
  have htestable : (narrow.estimate p.graph).map Estimate.isPredicate = .ok true := by decide +kernel
  obtain ⟨q, hq⟩ := exists_of_isOk hok
  rcases he : narrow.estimate p.graph with error | e
  · rw [he] at htestable
    cases htestable
  · rw [he] at htestable
    exact ⟨q, e, rfl, hq, rfl, Except.ok.inj htestable,
      compile_narrowed_iff rfl hq he (Except.ok.inj htestable)⟩

/-- The links at an atom can be found without a full scan, and a value can be tested, but the links with the value cannot be
found without a full scan. -/
theorem exists_refused_narrowing :
    let p : Planner := ⟨.strict, .ofStore (Store.afterChanges [.defineType "Knows" .none [], .addAtom 3 (.int 7),
      .addLink 3 [4] (.int 5), .addLink 3 [4] (.int 6)])⟩
    let c : Condition := .incident 4
    let narrow : Condition := .value (.int 5) .eq
    p.config.allowFullScan = false ∧ (p.compile c).answer.isOk = true ∧
      (narrow.estimate p.graph).map Estimate.isPredicate = .ok true ∧
      (p.compile (.and [c, narrow])).answer = .error (.plan (.fullScanDisabled "value = 5")) := by
  intro p c narrow
  have herror : (p.compile (.and [c, narrow])).answer.map (fun _ => ()) = .error (.plan (.fullScanDisabled "value = 5")) := by
    decide +kernel
  refine ⟨rfl, by decide +kernel, by decide +kernel, ?_⟩
  rcases hq : (p.compile (.and [c, narrow])).answer with e | q
  · rw [hq] at herror
    cases herror
    rfl
  · rw [hq] at herror
    cases herror

end Planner

end HyperQuery
