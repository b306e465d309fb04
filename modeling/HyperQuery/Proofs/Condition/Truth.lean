import HyperQuery.Condition.Eval
import HyperQuery.Condition.NormalForm
import HyperQuery.Proofs.Metered

/-!
# Truth of conditions

An atom decides a condition if evaluating the condition on it ends without an error (`Condition.Decided`), and the
condition holds if the answer is yes (`Condition.Holds`). Conjunctions and disjunctions stop at the first operand that
decides them, so an operand with an error may or may not be met:

* a conjunction holds exactly when every conjunct holds, errors or not (`holds_and`);
* a disjunction that holds has an arm that holds (`exists_of_holds_or`), and the converse needs the arms before it to
  be decided (`holds_or`).

A condition whose leaves are all decided is decided itself (`decided_of_leaves`).
-/

namespace HyperQuery

/-- A store as a graph whose predicates accept every atom and whose mappings drop every atom. -/
def Graph.ofStore (s : Store) : Graph :=
  ⟨s, ⟨fun _ => ⟨"", .zero, fun _ _ => .ok true⟩, fun _ => ⟨"", fun _ _ => .ok none⟩⟩⟩

namespace Condition

/-! ### Leaves -/

mutual

/-- The parts of a condition that are neither conjunctions nor disjunctions; negations and mappings are not
entered. -/
def leaves : Condition → List Condition
  | .and conjuncts => leavesOf conjuncts
  | .or arms => leavesOf arms
  | leaf => [leaf]

/-- The leaves of the conditions of a list. -/
def leavesOf : List Condition → List Condition
  | [] => []
  | c :: rest => leaves c ++ leavesOf rest

end

mutual

/-- The constraints a condition is made of: its leaves, with those under negations in place of the negations. -/
def basics : Condition → List Condition
  | .and conjuncts => basicsOf conjuncts
  | .or arms => basicsOf arms
  | .not operand => basics operand
  | leaf => [leaf]

/-- The constraints the conditions of a list are made of. -/
def basicsOf : List Condition → List Condition
  | [] => []
  | c :: rest => basics c ++ basicsOf rest

end

theorem leaves_of_not_isCombinator {c : Condition} (h : c.isCombinator = false) : c.leaves = [c] := by
  cases c <;> first | rfl | simp [isCombinator] at h

theorem mem_leavesOf {l : Condition} {cs : List Condition} : l ∈ leavesOf cs ↔ ∃ c ∈ cs, l ∈ c.leaves := by
  induction cs with
  | nil => simp [leavesOf]
  | cons c rest ih => simp [leavesOf, ih]

/-- Conditions that are not combined themselves are the leaves of their conjunction. -/
theorem leaves_and {cs : List Condition} (h : ∀ c ∈ cs, c.isCombinator = false) : (Condition.and cs).leaves = cs := by
  rw [leaves]
  induction cs with
  | nil => rfl
  | cons c cs ih =>
    rw [leavesOf, leaves_of_not_isCombinator (h c (by simp)), ih fun d hd => h d (by simp [hd]), List.singleton_append]

theorem mem_basicsOf {l : Condition} {cs : List Condition} : l ∈ basicsOf cs ↔ ∃ c ∈ cs, l ∈ c.basics := by
  induction cs with
  | nil => simp [basicsOf]
  | cons c rest ih => simp [basicsOf, ih]

mutual

/-- Induction over conjunctions and disjunctions: what holds of leaves, and of a combination when it holds of every
operand, holds of every condition. -/
@[elab_as_elim]
theorem combinatorInduction {P : Condition → Prop} (and : ∀ cs, (∀ c ∈ cs, P c) → P (.and cs))
    (or : ∀ cs, (∀ c ∈ cs, P c) → P (.or cs)) (leaf : ∀ c, c.isCombinator = false → P c) : (c : Condition) → P c
  | .and conjuncts => and conjuncts (combinatorInductionList and or leaf conjuncts)
  | .or arms => or arms (combinatorInductionList and or leaf arms)
  | .any | .nothing | .ofType _ | .ofTypePlus _ | .value _ _ | .typedValue _ _ _ | .part _ _ _
  | .indexedPart _ _ _ _ _ | .incident _ | .link _ | .orderedLink _ | .targetOf _ | .subsumes _ | .subsumed _
  | .walk _ | .predicate _ | .not _ | .map _ _ => leaf _ rfl

private theorem combinatorInductionList {P : Condition → Prop} (and : ∀ cs, (∀ c ∈ cs, P c) → P (.and cs))
    (or : ∀ cs, (∀ c ∈ cs, P c) → P (.or cs)) (leaf : ∀ c, c.isCombinator = false → P c) :
    (cs : List Condition) → ∀ c ∈ cs, P c
  | [], _, hc => absurd hc (by simp)
  | c :: rest, d, hd => by
    rcases List.mem_cons.mp hd with hdc | hd
    · rw [hdc]
      exact combinatorInduction and or leaf c
    · exact combinatorInductionList and or leaf rest d hd

end

theorem map_cases (c : Condition) :
    (∃ operand mapping, c = .map operand mapping) ∨ ∀ operand mapping, c ≠ .map operand mapping := by
  cases c with
  | map operand mapping => exact .inl ⟨operand, mapping, rfl⟩
  | _ => exact .inr (by simp)

/-- Leaves are not made of other conditions. -/
theorem isCombinator_of_mem_leaves {c l : Condition} (hl : l ∈ c.leaves) : l.isCombinator = false := by
  induction c using combinatorInduction with
  | and cs ih | or cs ih =>
    obtain ⟨c, hc, hl⟩ := mem_leavesOf.mp hl
    exact ih c hc hl
  | leaf c h =>
    rw [leaves_of_not_isCombinator h, List.mem_singleton] at hl
    rw [hl]
    exact h

/-! ### Deciding and holding -/

variable (g : Graph) (a : Atom)

/-- The atom decides the condition: there is no error. -/
def Decided (c : Condition) : Prop := ∃ b, (c.eval g a).answer = .ok b

/-- The condition is true of the atom. -/
def Holds (c : Condition) : Prop := (c.eval g a).answer = .ok true

variable {g a}

theorem Holds.decided {c : Condition} (h : c.Holds g a) : c.Decided g a := ⟨true, h⟩

theorem eval_eq_false {c : Condition} (hd : c.Decided g a) (h : ¬ c.Holds g a) : (c.eval g a).answer = .ok false := by
  obtain ⟨b, hb⟩ := hd
  cases b with
  | true => exact absurd hb h
  | false => exact hb

/-- Two decided conditions that hold together have the same answer. -/
theorem answer_eq_of_holds_iff {c d : Condition} (hc : c.Decided g a) (hd : d.Decided g a)
    (h : c.Holds g a ↔ d.Holds g a) : (c.eval g a).answer = (d.eval g a).answer := by
  by_cases hh : c.Holds g a
  · exact hh.trans (h.mp hh).symm
  · rw [eval_eq_false hc hh, eval_eq_false hd (fun hd' => hh (h.mpr hd'))]

@[simp] theorem holds_any : Condition.any.Holds g a := rfl

@[simp] theorem not_holds_nothing : ¬ Condition.nothing.Holds g a := by
  intro h
  simp [Holds, eval, evalLeaf] at h

@[simp] theorem not_holds_map {operand : Condition} {mapping : Mapping} : ¬ (Condition.map operand mapping).Holds g a := by
  intro h
  have hanswer : ((Condition.map operand mapping).eval g a).answer = .error (.unsupported .pointTestOfMapping) := rfl
  simp [Holds, hanswer] at h

@[simp] theorem decided_nothing : Condition.nothing.Decided g a := ⟨false, rfl⟩

/-! ### Constraints on type, value and parts -/

theorem eval_ofType {ty : TypeRef} {id : AtomId} (h : ty.resolve g.store = .ok id) :
    ((Condition.ofType ty).eval g a).answer = .ok (a.type == id) := by
  rw [eval, evalLeaf, Metered.answer_bind_of_ok h]
  · rfl
  all_goals simp

theorem eval_ofTypePlus {ty : TypeRef} {id : AtomId} {below : List AtomId} (h : ty.resolve g.store = .ok id)
    (hbelow : g.store.subtypes id = .ok below) :
    ((Condition.ofTypePlus ty).eval g a).answer = .ok (below.contains a.type) := by
  rw [eval, evalLeaf]
  · exact (Metered.answer_bind_of_ok h).trans (Metered.answer_bind_of_ok hbelow)
  all_goals simp

theorem notNull_of_rejectNull {literal : Value} (h : rejectNull literal = .ok ()) : literal.isNull = false := by
  unfold rejectNull at h
  split at h
  · simp at h
  · rename_i hnull
    exact Bool.eq_false_iff.mpr hnull

theorem eval_typedValue {ty : TypeRef} {literal : Value} {op : Comparison} {id : AtomId}
    (hnull : literal.isNull = false) (h : ty.resolve g.store = .ok id) :
    ((Condition.typedValue ty literal op).eval g a).answer = .ok (a.type == id && a.value.satisfies op literal) := by
  rw [eval, evalLeaf, rejectNull, hnull]
  · exact (Metered.answer_bind_of_ok (a := ()) rfl).trans (Metered.answer_bind_of_ok h)
  all_goals simp

theorem eval_value_of_some {literal : Value} {op : Comparison} {ty : AtomId} (hnull : literal.isNull = false)
    (h : g.store.typeOfValue literal = some ty) :
    ((Condition.value literal op).eval g a).answer = .ok (a.type == ty && a.value.satisfies op literal) := by
  rw [eval, evalLeaf, rejectNull, hnull, h]
  · refine (Metered.answer_bind_of_ok (a := ()) rfl).trans ?_
    by_cases hty : ty = a.type
    · simp [hty]
    · simp [hty, Ne.symm hty]
  all_goals simp

theorem eval_value_of_none {literal : Value} {op : Comparison} (hnull : literal.isNull = false)
    (h : g.store.typeOfValue literal = none) :
    ((Condition.value literal op).eval g a).answer = .ok (a.value.satisfies op literal) := by
  rw [eval, evalLeaf, rejectNull, hnull, h]
  · rfl
  all_goals simp

theorem eval_part {path : String} {literal : Value} {op : Comparison} :
    ((Condition.part path literal op).eval g a).answer = .ok (partSatisfies a path op literal) := rfl

theorem eval_indexedPart {ty : AtomId} {path : String} {index : IndexHandle} {literal : Value} {op : Comparison} :
    ((Condition.indexedPart ty path index literal op).eval g a).answer =
      .ok (a.type == ty && partSatisfies a path op literal) := rfl

theorem holds_indexedPart_iff {ty : AtomId} {path : String} {index : IndexHandle} {literal : Value}
    {op : Comparison} : (Condition.indexedPart ty path index literal op).Holds g a ↔
      a.type = ty ∧ ∃ part, a.value.project path = some part ∧ part.satisfies op literal = true := by
  rw [Holds, eval_indexedPart]
  simp [partSatisfies, Option.any_eq_true]

/-! ### Conjunctions -/

private theorem evalAll_cons_of_holds {c : Condition} {cs : List Condition} (h : c.Holds g a) :
    (evalAll g a (c :: cs)).answer = (evalAll g a cs).answer := Metered.answer_bind_of_ok h

private theorem evalAll_cons_of_not {c : Condition} {cs : List Condition}
    (h : (c.eval g a).answer = .ok false) : (evalAll g a (c :: cs)).answer = .ok false :=
  Metered.answer_bind_of_ok h

theorem answer_evalAll_append {cs ds : List Condition} :
    (evalAll g a (cs ++ ds)).answer =
      (evalAll g a cs).answer >>= fun b => if b then (evalAll g a ds).answer else .ok false := by
  induction cs with
  | nil => rfl
  | cons c cs ih =>
    rcases hc : (c.eval g a).answer with e | b
    · rw [List.cons_append, evalAll, evalAll, Metered.answer_bind_of_error hc, Metered.answer_bind_of_error hc]
      rfl
    · rw [List.cons_append, evalAll, evalAll, Metered.answer_bind_of_ok hc, Metered.answer_bind_of_ok hc]
      cases b with
      | true => exact ih
      | false => rfl

theorem evalAll_eq_true_iff {cs : List Condition} :
    (evalAll g a cs).answer = .ok true ↔ ∀ c ∈ cs, c.Holds g a := by
  induction cs with
  | nil => simp [evalAll]
  | cons c cs ih =>
    by_cases hc : c.Holds g a
    · rw [evalAll_cons_of_holds hc, ih]
      simp [hc]
    · refine ⟨fun h => ?_, fun h => absurd (h c (by simp)) hc⟩
      obtain ⟨b, hb, hrest⟩ := Metered.answer_bind_eq_ok_iff.mp h
      cases b with
      | true => exact absurd hb hc
      | false => simp at hrest

/-- A further condition counts if those before it hold. -/
theorem evalAll_concat {cs : List Condition} {c : Condition} {before b : Bool}
    (h : (evalAll g a cs).answer = .ok before) (hb : before = true → (c.eval g a).answer = .ok b) :
    (evalAll g a (cs ++ [c])).answer = .ok (before && b) := by
  rw [answer_evalAll_append, h]
  cases before with
  | true =>
    show (evalAll g a [c]).answer = _
    cases b with
    | true => exact evalAll_cons_of_holds (hb rfl)
    | false => exact evalAll_cons_of_not (hb rfl)
  | false => rfl

theorem holds_and {cs : List Condition} : (Condition.and cs).Holds g a ↔ ∀ c ∈ cs, c.Holds g a := by
  unfold Holds
  rw [eval]
  exact evalAll_eq_true_iff

theorem decided_and {cs : List Condition} (h : ∀ c ∈ cs, c.Decided g a) : (Condition.and cs).Decided g a := by
  unfold Decided
  rw [eval]
  induction cs with
  | nil => exact ⟨true, rfl⟩
  | cons c cs ih =>
    by_cases hc : c.Holds g a
    · rw [evalAll_cons_of_holds hc]
      exact ih fun d hd => h d (by simp [hd])
    · exact ⟨false, evalAll_cons_of_not (eval_eq_false (h c (by simp)) hc)⟩

theorem evalAll_eq_false {cs : List Condition} (hd : ∀ c ∈ cs, c.Decided g a) (h : ¬ ∀ c ∈ cs, c.Holds g a) :
    (evalAll g a cs).answer = .ok false := by
  have hfalse := eval_eq_false (decided_and hd) fun hall => h (holds_and.mp hall)
  rwa [eval] at hfalse

/-! ### Disjunctions -/

private theorem evalAny_cons_of_holds {c : Condition} {cs : List Condition} (h : c.Holds g a) :
    (evalAny g a (c :: cs)).answer = .ok true := Metered.answer_bind_of_ok h

private theorem evalAny_cons_of_not {c : Condition} {cs : List Condition}
    (h : (c.eval g a).answer = .ok false) : (evalAny g a (c :: cs)).answer = (evalAny g a cs).answer :=
  Metered.answer_bind_of_ok h

theorem answer_evalAny_append {cs ds : List Condition} :
    (evalAny g a (cs ++ ds)).answer =
      (evalAny g a cs).answer >>= fun b => if b then .ok true else (evalAny g a ds).answer := by
  induction cs with
  | nil => rfl
  | cons c cs ih =>
    rcases hc : (c.eval g a).answer with e | b
    · rw [List.cons_append, evalAny, evalAny, Metered.answer_bind_of_error hc, Metered.answer_bind_of_error hc]
      rfl
    · rw [List.cons_append, evalAny, evalAny, Metered.answer_bind_of_ok hc, Metered.answer_bind_of_ok hc]
      cases b with
      | true => rfl
      | false => exact ih

theorem exists_of_holds_or {cs : List Condition} (h : (Condition.or cs).Holds g a) : ∃ c ∈ cs, c.Holds g a := by
  unfold Holds at h
  rw [eval] at h
  induction cs with
  | nil => simp [evalAny] at h
  | cons c cs ih =>
    obtain ⟨b, hb, hrest⟩ := Metered.answer_bind_eq_ok_iff.mp h
    cases b with
    | true => exact ⟨c, by simp, hb⟩
    | false =>
      obtain ⟨d, hd, hh⟩ := ih hrest
      exact ⟨d, by simp [hd], hh⟩

theorem holds_or {cs : List Condition} (h : ∀ c ∈ cs, c.Decided g a) :
    (Condition.or cs).Holds g a ↔ ∃ c ∈ cs, c.Holds g a := by
  refine ⟨exists_of_holds_or, fun hex => ?_⟩
  unfold Holds
  rw [eval]
  -- the arms before the one that holds are decided, so they are passed over without an error
  induction cs with
  | nil => simp at hex
  | cons c cs ih =>
    by_cases hc : c.Holds g a
    · exact evalAny_cons_of_holds hc
    · rw [evalAny_cons_of_not (eval_eq_false (h c (by simp)) hc)]
      refine ih (fun d hd => h d (by simp [hd])) ?_
      obtain ⟨d, hd, hh⟩ := hex
      rcases List.mem_cons.mp hd with rfl | hd
      · exact absurd hh hc
      · exact ⟨d, hd, hh⟩

theorem decided_or {cs : List Condition} (h : ∀ c ∈ cs, c.Decided g a) : (Condition.or cs).Decided g a := by
  unfold Decided
  rw [eval]
  induction cs with
  | nil => exact ⟨false, rfl⟩
  | cons c cs ih =>
    by_cases hc : c.Holds g a
    · exact ⟨true, evalAny_cons_of_holds hc⟩
    · rw [evalAny_cons_of_not (eval_eq_false (h c (by simp)) hc)]
      exact ih fun d hd => h d (by simp [hd])

theorem decided_not {c : Condition} (h : c.Decided g a) : (Condition.not c).Decided g a := by
  obtain ⟨b, hb⟩ := h
  refine ⟨!b, ?_⟩
  rw [eval]
  exact Metered.answer_bind_of_ok hb

/-! ### Conjunctions and disjunctions without superfluous combinators -/

theorem answer_conjunction (cs : List Condition) :
    ((conjunction cs).eval g a).answer = (evalAll g a cs).answer := by
  match cs with
  | [] => rfl
  | [c] =>
    show (c.eval g a).answer = _
    rcases hc : (c.eval g a).answer with e | _ | _
    · exact (Metered.answer_bind_of_error hc).symm
    · exact (evalAll_cons_of_not hc).symm
    · exact (evalAll_eq_true_iff.mpr fun d hd => List.mem_singleton.mp hd ▸ hc).symm
  | _ :: _ :: _ => rfl

theorem holds_conjunction {cs : List Condition} : (conjunction cs).Holds g a ↔ ∀ c ∈ cs, c.Holds g a :=
  match cs with
  | [] => by simp [conjunction]
  | [c] => by simp [conjunction]
  | _ :: _ :: _ => holds_and

theorem decided_conjunction {cs : List Condition} (h : ∀ c ∈ cs, c.Decided g a) :
    (conjunction cs).Decided g a :=
  match cs with
  | [] => ⟨true, rfl⟩
  | [c] => h c (by simp)
  | _ :: _ :: _ => decided_and h

theorem answer_disjunction (cs : List Condition) :
    ((disjunction cs).eval g a).answer = (evalAny g a cs).answer := by
  match cs with
  | [] => rfl
  | [c] =>
    show (c.eval g a).answer = _
    rcases hc : (c.eval g a).answer with e | _ | _
    · exact (Metered.answer_bind_of_error hc).symm
    · rw [evalAny_cons_of_not hc]
      rfl
    · exact (evalAny_cons_of_holds hc).symm
  | _ :: _ :: _ => rfl

theorem holds_disjunction {cs : List Condition} (h : ∀ c ∈ cs, c.Decided g a) :
    (disjunction cs).Holds g a ↔ ∃ c ∈ cs, c.Holds g a :=
  match cs, h with
  | [], _ => by simp [disjunction]
  | [c], _ => by simp [disjunction]
  | _ :: _ :: _, h => holds_or h

theorem decided_disjunction {cs : List Condition} (h : ∀ c ∈ cs, c.Decided g a) :
    (disjunction cs).Decided g a :=
  match cs, h with
  | [], _ => decided_nothing
  | [c], h => h c (by simp)
  | _ :: _ :: _, h => decided_or h

theorem mem_leaves_conjunction {cs : List Condition} {l : Condition} (h : l ∈ (conjunction cs).leaves) :
    l ∈ leavesOf cs ∨ l = .any := by
  match cs, h with
  | [], h => exact .inr (List.mem_singleton.mp h)
  | [c], h => exact .inl (mem_leavesOf.mpr ⟨c, by simp, h⟩)
  | _ :: _ :: _, h => exact .inl h

theorem mem_leaves_disjunction {cs : List Condition} {l : Condition} (h : l ∈ (disjunction cs).leaves) :
    l ∈ leavesOf cs ∨ l = .nothing := by
  match cs, h with
  | [], h => exact .inr (List.mem_singleton.mp h)
  | [c], h => exact .inl (mem_leavesOf.mpr ⟨c, by simp, h⟩)
  | _ :: _ :: _, h => exact .inl h

/-! ### From leaves to conditions -/

theorem decided_of_leaves {c : Condition} (h : ∀ l ∈ c.leaves, l.Decided g a) : c.Decided g a := by
  induction c using combinatorInduction with
  | and cs ih => exact decided_and fun c hc => ih c hc fun l hl => h l (mem_leavesOf.mpr ⟨c, hc, hl⟩)
  | or cs ih => exact decided_or fun c hc => ih c hc fun l hl => h l (mem_leavesOf.mpr ⟨c, hc, hl⟩)
  | leaf c hc => exact h c (by rw [leaves_of_not_isCombinator hc]; exact List.mem_singleton_self c)

mutual

/-- Conditions are decided if the constraints they are made of are. -/
theorem decided_of_basics : (c : Condition) → (∀ l ∈ c.basics, l.Decided g a) → c.Decided g a
  | .and conjuncts, h => decided_and (decided_of_basicsOf conjuncts h)
  | .or arms, h => decided_or (decided_of_basicsOf arms h)
  | .not operand, h => decided_not (decided_of_basics operand h)
  | .any, h | .nothing, h | .ofType _, h | .ofTypePlus _, h | .value _ _, h | .typedValue _ _ _, h | .part _ _ _, h
  | .indexedPart _ _ _ _ _, h | .incident _, h | .link _, h | .orderedLink _, h | .targetOf _, h | .subsumes _, h
  | .subsumed _, h | .walk _, h | .predicate _, h | .map _ _, h => h _ (List.mem_singleton_self _)

private theorem decided_of_basicsOf :
    (cs : List Condition) → (∀ l ∈ basicsOf cs, l.Decided g a) → ∀ c ∈ cs, c.Decided g a
  | [], _, _, hc => absurd hc (by simp)
  | c :: rest, h, d, hd => by
    rcases List.mem_cons.mp hd with hdc | hd
    · rw [hdc]
      exact decided_of_basics c fun l hl => h l (List.mem_append_left _ hl)
    · exact decided_of_basicsOf rest (fun l hl => h l (List.mem_append_right _ hl)) d hd

end

/-- A condition is made of what its leaves are made of. -/
theorem mem_basics_iff_leaves {c b : Condition} : b ∈ c.basics ↔ ∃ l ∈ c.leaves, b ∈ l.basics := by
  induction c using combinatorInduction with
  | and cs ih | or cs ih =>
    simp only [basics, mem_basicsOf, leaves, mem_leavesOf]
    constructor
    · rintro ⟨c, hc, hb⟩
      obtain ⟨l, hl, hb⟩ := (ih c hc).mp hb
      exact ⟨l, ⟨c, hc, hl⟩, hb⟩
    · rintro ⟨l, ⟨c, hc, hl⟩, hb⟩
      exact ⟨c, hc, (ih c hc).mpr ⟨l, hl, hb⟩⟩
  | leaf c h => simp [leaves_of_not_isCombinator h]

/-! ### Mappings -/

theorem mapDepth_le_mapDepths {cs : List Condition} {c : Condition} (hc : c ∈ cs) : c.mapDepth ≤ mapDepths cs := by
  induction cs with
  | nil => simp at hc
  | cons d cs ih =>
    rw [mapDepths]
    rcases List.mem_cons.mp hc with rfl | hc
    · exact Nat.le_max_left _ _
    · exact Nat.le_trans (ih hc) (Nat.le_max_right _ _)

theorem mapDepth_le_of_mem_leaves {c l : Condition} (hl : l ∈ c.leaves) : l.mapDepth ≤ c.mapDepth := by
  induction c using combinatorInduction with
  | and cs ih | or cs ih =>
    obtain ⟨c, hc, hl⟩ := mem_leavesOf.mp hl
    rw [mapDepth]
    exact Nat.le_trans (ih c hc hl) (mapDepth_le_mapDepths hc)
  | leaf c h =>
    rw [leaves_of_not_isCombinator h, List.mem_singleton] at hl
    exact hl ▸ Nat.le_refl _

end Condition

end HyperQuery
