import HyperQuery.Proofs.Condition.Conjunction

/-!
# Simplifying a conjunction keeps its answers

Sorting a conjunction into slots is sorting in its conjuncts one by one, nested conjunctions dissolved
(`absorbAll_conjunctsOf`). Every step keeps the answer reached so far (`outcomeAnswers_of_absorbAll`), so the
simplified conjunction answers as before, unless two of the slots were found to contradict each other
(`eval_simplify_and`). Without disjunctions among the conjuncts nothing else can happen to a conjunction that is not
rewritten to `nothing` (`simplify_and_preserves`).
-/

namespace HyperQuery

namespace Condition

/-! ### Conjuncts -/

mutual

/-- The conjuncts of a condition with nested conjunctions dissolved; what is not a conjunction is its own
conjunct. -/
def conjuncts : Condition → List Condition
  | .and cs => conjunctsOf cs
  | c => [c]

/-- The conjuncts of the conditions of a list. -/
def conjunctsOf : List Condition → List Condition
  | [] => []
  | c :: rest => conjuncts c ++ conjunctsOf rest

end

theorem conjuncts_of_not_isCombinator {c : Condition} (h : c.isCombinator = false) : c.conjuncts = [c] := by
  cases c <;> first | rfl | simp [isCombinator] at h

theorem mem_conjunctsOf {u : Condition} {cs : List Condition} : u ∈ conjunctsOf cs ↔ ∃ c ∈ cs, u ∈ c.conjuncts := by
  induction cs with
  | nil => simp [conjunctsOf]
  | cons c rest ih => simp [conjunctsOf, ih]

theorem ne_and_of_not_isCombinator {c : Condition} (h : c.isCombinator = false) (cs : List Condition) : c ≠ .and cs := by
  rintro rfl
  simp [isCombinator] at h

/-- Conjuncts are not conjunctions. -/
theorem ne_and_of_mem_conjuncts {c u : Condition} (hu : u ∈ c.conjuncts) (cs : List Condition) : u ≠ .and cs := by
  induction c using combinatorInduction with
  | and cs ih =>
    obtain ⟨c, hc, hu⟩ := mem_conjunctsOf.mp hu
    exact ih c hc hu
  | or cs _ =>
    rw [conjuncts, List.mem_singleton] at hu
    · simp [hu]
    · simp
  | leaf c h =>
    rw [conjuncts_of_not_isCombinator h, List.mem_singleton] at hu
    rw [hu]
    exact ne_and_of_not_isCombinator h cs

theorem mem_leaves_iff_conjuncts {c l : Condition} : l ∈ c.leaves ↔ ∃ u ∈ c.conjuncts, l ∈ u.leaves := by
  induction c using combinatorInduction with
  | and cs ih =>
    simp only [leaves, mem_leavesOf, conjuncts, mem_conjunctsOf]
    constructor
    · rintro ⟨c, hc, hl⟩
      obtain ⟨u, hu, hl⟩ := (ih c hc).mp hl
      exact ⟨u, ⟨c, hc, hu⟩, hl⟩
    · rintro ⟨u, ⟨c, hc, hu⟩, hl⟩
      exact ⟨c, hc, (ih c hc).mpr ⟨u, hu, hl⟩⟩
  | or cs _ => simp [conjuncts]
  | leaf c h => simp [conjuncts_of_not_isCombinator h]

/-! ### Dissolving nested conjunctions -/

variable {s : Store}

theorem absorbAll_append {k : Conjunction} {cs ds : List Condition} :
    absorbAll s k (cs ++ ds) = absorbAll s k cs >>= fun r => match r with
      | some k => absorbAll s k ds
      | none => .ok none := by
  induction cs generalizing k with
  | nil => rfl
  | cons c cs ih =>
    rw [List.cons_append, absorbAll, absorbAll]
    rcases absorb s k c with e | _ | k'
    · rfl
    · rfl
    · exact ih

private theorem absorbAll_singleton {k : Conjunction} {c : Condition} : absorbAll s k [c] = absorb s k c := by
  rw [absorbAll]
  rcases absorb s k c with e | _ | k' <;> rfl

theorem absorb_eq_absorbAll_conjuncts (c : Condition) (k : Conjunction) :
    absorb s k c = absorbAll s k c.conjuncts := by
  induction c using combinatorInduction generalizing k with
  | and cs ih =>
    rw [absorb, conjuncts]
    induction cs generalizing k with
    | nil => rfl
    | cons c cs ihcs =>
      rw [conjunctsOf, absorbAll_append, absorbAll, ih c (by simp)]
      rcases absorbAll s k c.conjuncts with e | _ | k'
      · rfl
      · rfl
      · exact ihcs (fun d hd => ih d (by simp [hd])) k'
  | or cs _ => exact absorbAll_singleton.symm
  | leaf c h => rw [conjuncts_of_not_isCombinator h, absorbAll_singleton]

theorem absorbAll_conjunctsOf {k : Conjunction} {cs : List Condition} :
    absorbAll s k cs = absorbAll s k (conjunctsOf cs) := absorb_eq_absorbAll_conjuncts (.and cs) k

variable {g : Graph} {a : Atom}

theorem answer_eval_eq_evalAll_conjuncts (c : Condition) :
    (c.eval g a).answer = (evalAll g a c.conjuncts).answer := by
  induction c using combinatorInduction with
  | and cs ih =>
    rw [eval, conjuncts]
    induction cs with
    | nil => rfl
    | cons c cs ihcs =>
      rw [conjunctsOf, answer_evalAll_append, evalAll, Metered.answer_bind, ih c (by simp)]
      rcases (evalAll g a c.conjuncts).answer with e | _ | _
      · rfl
      · rfl
      · exact ihcs fun d hd => ih d (by simp [hd])
  | or cs _ => exact answer_conjunction [.or cs]
  | leaf c h =>
    rw [conjuncts_of_not_isCombinator h]
    exact answer_conjunction [c]

theorem answer_evalAll_conjunctsOf {cs : List Condition} :
    (evalAll g a cs).answer = (evalAll g a (conjunctsOf cs)).answer := by
  have h := answer_eval_eq_evalAll_conjuncts (g := g) (a := a) (.and cs)
  rwa [eval, conjuncts] at h

/-! ### Sorting in the conjuncts -/

/-- Simplifying the condition keeps its answer on the atom. -/
def Preserved (g : Graph) (a : Atom) (c : Condition) : Prop :=
  ∀ d, simplify g.store c = .ok d → ∀ b, (c.eval g a).answer = .ok b → (d.eval g a).answer = .ok b

theorem simplify_of_not_isCombinator {c : Condition} (h : c.isCombinator = false) : simplify s c = .ok c := by
  cases c <;> first | rfl | simp [isCombinator] at h

theorem absorb_of_not_isCombinator {c : Condition} {k : Conjunction} (h : c.isCombinator = false) :
    absorb s k c = k.addLeaf s c := by
  cases c <;> first | rfl | simp [isCombinator] at h

theorem preserved_of_not_isCombinator {c : Condition} (h : c.isCombinator = false) : Preserved g a c := by
  intro d hd b hb
  rw [simplify_of_not_isCombinator h] at hd
  rwa [← Except.ok.inj hd]

theorem sortsIn_of_absorb {c : Condition} {k : Conjunction} {r : Option Conjunction} (hleaf : c.isCombinator = false)
    (h : absorb s k c = .ok r) : Conjunction.SortsIn s k c r :=
  Conjunction.sortsIn_of_addLeaf ((absorb_of_not_isCombinator hleaf).symm.trans h)

/-- A conjunct is sorted into its slot if it is a leaf. A disjunction is simplified and kept whole, and empties the
conjunction if nothing is left of it. -/
theorem absorb_cases {u : Condition} {k : Conjunction} {r : Option Conjunction} (hu : ∀ cs, u ≠ .and cs)
    (h : absorb s k u = .ok r) :
    (u.isCombinator = false ∧ Conjunction.SortsIn s k u r) ∨
    (∃ d, simplify s u = .ok d ∧ ((d = .nothing ∧ r = none) ∨ r = some (k.addOther d))) := by
  by_cases hleaf : u.isCombinator = false
  · exact .inl ⟨hleaf, sortsIn_of_absorb hleaf h⟩
  · right
    cases u with
    | and cs => exact absurd rfl (hu cs)
    | or arms =>
      rw [absorb] at h
      obtain ⟨ds, hds, h⟩ := bind_eq_ok_iff.mp h
      refine ⟨disjunction ds, ?_, ?_⟩
      · rw [simplify, hds]
        rfl
      · split at h
        · rename_i hnothing
          cases h
          exact .inl ⟨hnothing, rfl⟩
        · cases h
          exact .inr rfl
    | _ => exact absurd rfl hleaf

/-- Sorting in one conjunct answers like evaluating it after the rest, and keeps the slots fitting. -/
private theorem outcomeAnswers_of_absorb {u : Condition} {k : Conjunction} {r : Option Conjunction} {before b : Bool}
    (hu : ∀ cs, u ≠ .and cs) (hpres : Preserved g a u) (h : absorb g.store k u = .ok r) (hk : k.Answers g a before)
    (hb : before = true → (u.eval g a).answer = .ok b) : Conjunction.OutcomeAnswers g a r (before && b) := by
  rcases absorb_cases hu h with ⟨-, hr⟩ | ⟨d, hd, ⟨rfl, rfl⟩ | rfl⟩
  · exact Conjunction.answers_of_sortsIn hr hk hb
  · exact Conjunction.answers_of_sortsIn .nothing hk fun hbefore => hpres _ hd b (hb hbefore)
  · exact hk.addOther fun hbefore => hpres d hd b (hb hbefore)

private theorem wellFormed_of_absorb {u : Condition} {k k' : Conjunction} (hu : ∀ cs, u ≠ .and cs)
    (h : absorb s k u = .ok (some k')) (hw : k.WellFormed s) : k'.WellFormed s := by
  rcases absorb_cases hu h with ⟨-, hr⟩ | ⟨d, -, ⟨-, hr⟩ | hr⟩
  · exact Conjunction.wellFormed_of_sortsIn hr hw
  · simp at hr
  · cases hr
    exact Conjunction.wellFormed_of_sortsIn .other hw

/-- The steps of sorting in conjuncts one after the other. -/
theorem absorbAll_cons_cases {u : Condition} {us : List Condition} {k : Conjunction} {r : Option Conjunction}
    (h : absorbAll s k (u :: us) = .ok r) :
    (absorb s k u = .ok none ∧ r = none) ∨ ∃ k', absorb s k u = .ok (some k') ∧ absorbAll s k' us = .ok r := by
  rw [absorbAll] at h
  obtain ⟨_ | k', hk', h⟩ := bind_eq_ok_iff.mp h
  · cases h
    exact .inl ⟨hk', rfl⟩
  · exact .inr ⟨k', hk', h⟩

theorem outcomeAnswers_of_absorbAll {us : List Condition} {k : Conjunction} {r : Option Conjunction} {before b : Bool}
    (hu : ∀ u ∈ us, ∀ cs, u ≠ .and cs) (hpres : ∀ u ∈ us, Preserved g a u) (h : absorbAll g.store k us = .ok r)
    (hk : k.Answers g a before) (hb : before = true → (evalAll g a us).answer = .ok b) :
    Conjunction.OutcomeAnswers g a r (before && b) := by
  induction us generalizing k before with
  | nil =>
    cases h
    cases before with
    | true => rwa [← Except.ok.inj (hb rfl)]
    | false => exact hk
  | cons u us ih =>
    -- the first conjunct answers `first` if it is reached, and the others answer `b` if they are
    obtain ⟨first, hfirst, hrest, hand⟩ : ∃ first, (before = true → (u.eval g a).answer = .ok first) ∧
        ((before && first) = true → (evalAll g a us).answer = .ok b) ∧ (before && b) = (before && first && b) := by
      cases before with
      | false => exact ⟨false, by simp⟩
      | true =>
        obtain ⟨first, hfirst, hrest⟩ := Metered.answer_bind_eq_ok_iff.mp (hb rfl)
        cases first with
        | true => exact ⟨true, fun _ => hfirst, fun _ => hrest, rfl⟩
        | false => exact ⟨false, fun _ => hfirst, by simp, (Except.ok.inj hrest).symm⟩
    have hu' := hu u (by simp)
    have hpres' := hpres u (by simp)
    rcases absorbAll_cons_cases h with ⟨hnone, rfl⟩ | ⟨k', hk', h⟩
    · have hfalse : (before && first) = false := outcomeAnswers_of_absorb hu' hpres' hnone hk hfirst
      rw [hand, hfalse]
      rfl
    · rw [hand]
      exact ih (fun v hv => hu v (by simp [hv])) (fun v hv => hpres v (by simp [hv])) h
        (outcomeAnswers_of_absorb hu' hpres' hk' hk hfirst) hrest

theorem wellFormed_of_absorbAll {us : List Condition} {k k' : Conjunction} (hu : ∀ u ∈ us, ∀ cs, u ≠ .and cs)
    (h : absorbAll s k us = .ok (some k')) (hw : k.WellFormed s) : k'.WellFormed s := by
  induction us generalizing k with
  | nil =>
    cases h
    exact hw
  | cons u us ih =>
    rcases absorbAll_cons_cases h with ⟨-, hr⟩ | ⟨k₁, hk₁, h⟩
    · simp at hr
    · exact ih (fun v hv => hu v (by simp [hv])) h (wellFormed_of_absorb (hu u (by simp)) hk₁ hw)

/-- The outcomes of simplifying a conjunction: a conjunct with which nothing matches, slots that contradict each other,
or slots written out again. -/
theorem simplify_and_cases {cs : List Condition} {d : Condition} (h : simplify s (.and cs) = .ok d) :
    (absorbAll s .empty (conjunctsOf cs) = .ok none ∧ d = .nothing) ∨
    ∃ k, absorbAll s .empty (conjunctsOf cs) = .ok (some k) ∧
      (k.isContradictory = true ∧ d = .nothing ∨ k.isContradictory = false ∧ k.toCondition s = .ok d) := by
  rw [simplify, absorbAll_conjunctsOf] at h
  obtain ⟨_ | k, hk, h⟩ := bind_eq_ok_iff.mp h
  · cases h
    exact .inl ⟨hk, rfl⟩
  · refine .inr ⟨k, hk, ?_⟩
    change (if k.isContradictory = true then .ok .nothing else k.toCondition s) = .ok d at h
    by_cases hcontra : k.isContradictory = true
    · rw [if_pos hcontra] at h
      cases h
      exact .inl ⟨hcontra, rfl⟩
    · rw [if_neg hcontra] at h
      exact .inr ⟨Bool.eq_false_iff.mpr hcontra, h⟩

/-- The simplified conjunction answers like the conjunction, or two of the slots contradict each other. -/
theorem eval_simplify_and {cs : List Condition} {d : Condition} {b : Bool}
    (hpres : ∀ u ∈ conjunctsOf cs, Preserved g a u) (hd : simplify g.store (.and cs) = .ok d)
    (hb : ((Condition.and cs).eval g a).answer = .ok b) :
    (d.eval g a).answer = .ok b ∨
    (d = .nothing ∧ ∃ k, absorbAll g.store .empty (conjunctsOf cs) = .ok (some k) ∧ k.WellFormed g.store ∧
      k.isContradictory = true ∧ (b = true → k.Core a)) := by
  have hu : ∀ u ∈ conjunctsOf cs, ∀ ds, u ≠ .and ds := fun u hu =>
    ne_and_of_mem_conjuncts (c := .and cs) (by rwa [conjuncts])
  rw [eval, answer_evalAll_conjunctsOf] at hb
  rcases simplify_and_cases hd with ⟨hk, rfl⟩ | ⟨k, hk, h⟩
  · have hfalse := outcomeAnswers_of_absorbAll hu hpres hk Conjunction.answers_empty fun _ => hb
    left
    rw [show b = false from hfalse]
    rfl
  · have hanswers := outcomeAnswers_of_absorbAll hu hpres hk Conjunction.answers_empty fun _ => hb
    have hw := wellFormed_of_absorbAll hu hk Conjunction.wellFormed_empty
    rcases h with ⟨hcontra, rfl⟩ | ⟨hcontra, hd⟩
    · refine .inr ⟨rfl, k, hk, hw, hcontra, fun hb => ?_⟩
      rcases hanswers with ⟨hcore, -⟩ | ⟨-, hfalse⟩
      · exact hcore
      · rw [hb] at hfalse
        exact absurd hfalse (by simp)
    · refine .inl (Conjunction.eval_toCondition hw ?_ hanswers hd)
      simp only [Conjunction.isContradictory, Bool.or_eq_false_iff, decide_eq_false_iff_not] at hcontra
      omega

/-! ### Where the parts of a simplified conjunction come from -/

/-- Without disjunctions the other conditions of a conjunction are conjuncts. -/
theorem mem_of_mem_others {us : List Condition} {k k' : Conjunction} (hu : ∀ u ∈ us, u.isCombinator = false)
    (h : absorbAll s k us = .ok (some k')) {c : Condition} (hc : c ∈ k'.others) : c ∈ k.others ∨ c ∈ us := by
  induction us generalizing k with
  | nil =>
    cases h
    exact .inl hc
  | cons u us ih =>
    rcases absorbAll_cons_cases h with ⟨-, hr⟩ | ⟨k₁, hk₁, h⟩
    · simp at hr
    · rcases ih (fun v hv => hu v (by simp [hv])) h with hc | hc
      · have hsorts := sortsIn_of_absorb (hu u (by simp)) hk₁
        cases hsorts with
        | other =>
          rcases Conjunction.mem_others_addOther.mp hc with hc | rfl
          · exact .inl hc
          · exact .inr (by simp)
        | _ => exact .inl hc
      · exact .inr (by simp [hc])

/-- Indexed parts in a conjunction as written out are bound to the registered index, or were there before. -/
theorem indexedPart_of_mem_toCondition {k : Conjunction} {d : Condition} (h : k.toCondition s = .ok d) {ty : AtomId}
    {path : String} {index : IndexHandle} {literal : Value} {op : Comparison}
    (hl : .indexedPart ty path index literal op ∈ d.leaves) :
    .indexedPart ty path index literal op ∈ leavesOf k.others ∨ s.partIndex? ty path = some index := by
  obtain ⟨first, hfirst, h⟩ := bind_eq_ok_iff.mp h
  cases h
  change _ ∈ (conjunction (k.coreConditions s first ++ k.others)).leaves at hl
  obtain ⟨c, hc, hlc⟩ := mem_leavesOf.mp ((mem_leaves_conjunction hl).resolve_right (by simp))
  rcases List.mem_append.mp hc with hc | hc
  · right
    cases Conjunction.coreCondition_of_mem hfirst hc with
    | indexedPart hindex =>
      simp only [leaves, List.mem_singleton, indexedPart.injEq] at hlc
      obtain ⟨rfl, rfl, rfl, -, -⟩ := hlc
      exact hindex
    | _ => simp [leaves] at hlc
  · exact .inl (mem_leavesOf.mpr ⟨c, hc, hlc⟩)

/-- A conjunction without disjunctions that is not rewritten to `nothing` keeps its answer on every atom that decides
its leaves. Comparisons of parts are bound to the registered indexes only. -/
theorem simplify_and_preserves {cs : List Condition} {d : Condition}
    (hor : ∀ u ∈ conjunctsOf cs, u.isCombinator = false) (hd : simplify g.store (.and cs) = .ok d)
    (hne : d ≠ .nothing) (hleaves : ∀ l ∈ (Condition.and cs).leaves, ∃ b, (l.eval g a).answer = .ok b) :
    (∃ b, (d.eval g a).answer = .ok b ∧ ((Condition.and cs).eval g a).answer = .ok b) ∧
    ∀ ty path index literal op, .indexedPart ty path index literal op ∈ d.leaves →
      .indexedPart ty path index literal op ∈ (Condition.and cs).leaves ∨
      g.store.partIndex? ty path = some index := by
  constructor
  · obtain ⟨b, hb⟩ := decided_of_leaves hleaves
    have hpres : ∀ u ∈ conjunctsOf cs, Preserved g a u := fun u hu => preserved_of_not_isCombinator (hor u hu)
    rcases eval_simplify_and hpres hd hb with h | ⟨h, -⟩
    · exact ⟨b, h, hb⟩
    · exact absurd h hne
  · intro ty path index literal op hl
    rcases simplify_and_cases hd with ⟨-, h⟩ | ⟨k, hk, ⟨-, h⟩ | ⟨-, h⟩⟩
    · exact absurd h hne
    · exact absurd h hne
    · refine (indexedPart_of_mem_toCondition h hl).imp_left fun hl => ?_
      obtain ⟨c, hc, hl⟩ := mem_leavesOf.mp hl
      have hc := (mem_of_mem_others hor hk hc).resolve_left (by simp [Conjunction.empty])
      exact mem_leaves_iff_conjuncts.mpr ⟨c, hc, hl⟩

/-- The initial store, with an ordered index over the parts `x` of types. -/
def indexedStore : Store := { Store.initial with partIndexes := [((1, "x"), ⟨0, "x", .ranged, none⟩)] }

/-- A type, a comparison of values and one of parts, in a nested conjunction, on the type of subsumption links. -/
theorem simplify_and_preserves_nested :
    let cs : List Condition := [.ofType (.handle 1), .and [.value (.string "A") .gte, .part "x" (.int 3) .lt]]
    let d : Condition :=
      .and [.typedValue (.handle 1) (.string "A") .gte, .indexedPart 1 "x" ⟨0, "x", .ranged, none⟩ (.int 3) .lt]
    (∃ b, (d.eval (.ofStore indexedStore) ⟨2, 1, .string "Subsumes", []⟩).answer = .ok b ∧
      ((Condition.and cs).eval (.ofStore indexedStore) ⟨2, 1, .string "Subsumes", []⟩).answer = .ok b) ∧
    ∀ ty path index literal op, .indexedPart ty path index literal op ∈ d.leaves →
      .indexedPart ty path index literal op ∈ (Condition.and cs).leaves ∨
      indexedStore.partIndex? ty path = some index := by
  refine simplify_and_preserves ?_ rfl (by simp) ?_
  · simp [conjunctsOf, conjuncts, isCombinator]
  · simp only [leaves, leavesOf, List.cons_append, List.nil_append, List.append_nil, List.forall_mem_cons]
    exact ⟨⟨_, rfl⟩, ⟨_, rfl⟩, ⟨_, rfl⟩, by simp⟩

end Condition

end HyperQuery
