import HyperQuery.Proofs.Condition.Simplify
import HyperQuery.Proofs.Store.Reachable
import HyperQuery.Proofs.Value.Equality

/-!
# Contradictions between equalities

Simplification takes two equalities for contradictory if their literals do not equal each other. That is right unless
the literals are mistaken for each other by rounding or by the sign of a zero. If no two equality literals of a
condition are, simplification keeps the answer of the condition on every atom (`preserved_of_not_mistaken`); and
exactly then `nothing` is reported only for conditions without matches (`nothing_has_no_match_iff`): for every mistaken
pair there is a store that holds a match of a conjunction which is simplified to `nothing`.
-/

namespace HyperQuery

namespace Conjunction

variable {k : Conjunction} {a : Atom}

private theorem exists_conflict {cs : List Constraint} (h : anyConflict cs = true) :
    ∃ c ∈ cs, ∃ d ∈ cs, c.conflicts d = true := by
  induction cs with
  | nil => simp [anyConflict] at h
  | cons c cs ih =>
    rcases Bool.or_eq_true_iff.mp h with h | h
    · obtain ⟨d, hd, hcd⟩ := List.any_eq_true.mp h
      exact ⟨c, by simp, d, by simp [hd], hcd⟩
    · obtain ⟨d, hd, e, he, hde⟩ := ih h
      exact ⟨d, by simp [hd], e, by simp [he], hde⟩

/-- An atom can meet a contradictory core only if two of its equalities have mistaken literals. -/
theorem exists_mistaken_of_core {s : Store} (hw : WellFormed s k) (hcontra : k.isContradictory = true)
    (hcore : k.Core a) :
    ∃ v w, ⟨v, .eq⟩ ∈ k.values ∧ ⟨w, .eq⟩ ∈ k.values ∧ Value.Mistaken v w := by
  rcases Bool.or_eq_true_iff.mp hcontra with h | h
  · exfalso
    rcases htypes : k.types with _ | ⟨t, _ | ⟨u, rest⟩⟩
    · simp [htypes] at h
    · simp [htypes] at h
    · have hnodup := hw.nodup
      rw [htypes] at hnodup
      have ht := hcore.types t (by simp [htypes])
      have hu := hcore.types u (by simp [htypes])
      simp [← ht, ← hu] at hnodup
  · obtain ⟨⟨v, p⟩, hv, ⟨w, q⟩, hw', hconf⟩ := exists_conflict h
    simp only [Constraint.conflicts, Bool.and_eq_true, beq_iff_eq, bne_iff_ne] at hconf
    obtain ⟨⟨rfl, rfl⟩, hne⟩ := hconf
    exact ⟨v, w, hv, hw', Value.exists_satisfies_eq_both_iff.mp
      ⟨hne, a.value, hcore.values _ hv, hcore.values _ hw'⟩⟩

end Conjunction

namespace Condition

variable {g : Graph} {a : Atom} {s : Store}

/-! ### Equality literals -/

/-- The literal of an equality of values. -/
def equalityLiteral? : Condition → Option Value
  | .value literal .eq => some literal
  | .typedValue _ literal .eq => some literal
  | _ => none

/-- The literals of the equalities of values among the leaves of a condition. -/
def equalityLiterals (c : Condition) : List Value := c.leaves.filterMap equalityLiteral?

theorem mem_equalityLiterals {c : Condition} {v : Value} :
    v ∈ c.equalityLiterals ↔ ∃ l ∈ c.leaves, l.equalityLiteral? = some v := List.mem_filterMap

/-- The equalities of a conjunction come from its conjuncts. -/
theorem exists_equality_of_mem_values {us : List Condition} {k k' : Conjunction}
    (hu : ∀ u ∈ us, ∀ cs, u ≠ .and cs) (h : absorbAll s k us = .ok (some k')) {v : Value}
    (hv : ⟨v, .eq⟩ ∈ k'.values) :
    ⟨v, .eq⟩ ∈ k.values ∨ ∃ u ∈ us, u.isCombinator = false ∧ u.equalityLiteral? = some v := by
  induction us generalizing k with
  | nil =>
    cases h
    exact .inl hv
  | cons u us ih =>
    rcases absorbAll_cons_cases h with ⟨-, hr⟩ | ⟨k₁, hk₁, h⟩
    · simp at hr
    · rcases ih (fun v hv => hu v (by simp [hv])) h with hv | ⟨u', hu', huv⟩
      · rcases absorb_cases (hu u (by simp)) hk₁ with ⟨hleaf, hr⟩ | ⟨d, -, ⟨-, hr⟩ | hr⟩
        · cases hr with
          | typedValue _ _ | defaultTyped _ _ | untyped _ _ =>
            rcases Conjunction.mem_values_addValue.mp hv with hv | hv
            · exact .inl hv
            · cases hv
              exact .inr ⟨_, by simp, hleaf, rfl⟩
          | _ => exact .inl hv
        · simp at hr
        · cases hr
          exact .inl hv
      · exact .inr ⟨u', by simp [hu'], huv⟩

/-! ### Simplification keeps answers -/

private theorem answer_evalAny_spread {d : Condition} {ds : List Condition} {b : Bool}
    (h : (d.eval g a).answer = .ok b) :
    (evalAny g a (d.spread ++ ds)).answer = if b then .ok true else (evalAny g a ds).answer := by
  have hspread : (evalAny g a d.spread).answer = .ok b := by
    rw [← h]
    cases d with
    | nothing => rfl
    | or arms => rw [eval]; rfl
    | _ => exact (answer_disjunction [_]).symm
  rw [answer_evalAny_append, hspread]
  rfl

private theorem evalAny_simplifyArms {cs ds : List Condition} {b : Bool} (hpres : ∀ c ∈ cs, Preserved g a c)
    (hds : simplifyArms g.store cs = .ok ds) (hb : (evalAny g a cs).answer = .ok b) :
    (evalAny g a ds).answer = .ok b := by
  induction cs generalizing ds with
  | nil =>
    cases hds
    exact hb
  | cons c cs ih =>
    obtain ⟨d, hd, hds⟩ := bind_eq_ok_iff.mp hds
    obtain ⟨rest, hrest, hds⟩ := bind_eq_ok_iff.mp hds
    cases hds
    obtain ⟨first, hfirst, hb⟩ := Metered.answer_bind_eq_ok_iff.mp hb
    rw [answer_evalAny_spread (hpres c (by simp) d hd first hfirst)]
    cases first with
    | true => exact hb
    | false => exact ih (fun c hc => hpres c (by simp [hc])) hrest hb

/-- If no two equality literals of a condition are mistaken, simplifying it keeps its answer on every atom. -/
theorem preserved_of_not_mistaken {c : Condition}
    (h : ∀ v ∈ c.equalityLiterals, ∀ w ∈ c.equalityLiterals, ¬ Value.Mistaken v w) : Preserved g a c := by
  -- conjuncts of nested conjunctions are preserved as well, which is what the outer conjunction needs
  suffices hall : Preserved g a c ∧ ∀ u ∈ c.conjuncts, Preserved g a u from hall.1
  have hsub : ∀ {d : Condition}, (∀ l ∈ d.leaves, l ∈ c.leaves) →
      ∀ v ∈ d.equalityLiterals, ∀ w ∈ d.equalityLiterals, ¬ Value.Mistaken v w := by
    intro d hd v hv w hw
    obtain ⟨l, hl, hlv⟩ := mem_equalityLiterals.mp hv
    obtain ⟨m, hm, hmw⟩ := mem_equalityLiterals.mp hw
    exact h v (mem_equalityLiterals.mpr ⟨l, hd l hl, hlv⟩) w (mem_equalityLiterals.mpr ⟨m, hd m hm, hmw⟩)
  clear h
  induction c using combinatorInduction with
  | and cs ih =>
    have hpres : ∀ u ∈ conjunctsOf cs, Preserved g a u := by
      intro u hu
      obtain ⟨c, hc, hu⟩ := mem_conjunctsOf.mp hu
      exact (ih c hc fun hd => hsub fun l hl => mem_leavesOf.mpr ⟨c, hc, hd l hl⟩).2 u hu
    refine ⟨fun d hd b hb => ?_, hpres⟩
    rcases eval_simplify_and hpres hd hb with h | ⟨rfl, k, hk, hw, hcontra, hcore⟩
    · exact h
    · cases b with
      | false => rfl
      | true =>
        obtain ⟨v, w, hv, hw, hmistaken⟩ := Conjunction.exists_mistaken_of_core hw hcontra (hcore rfl)
        have hu : ∀ u ∈ conjunctsOf cs, ∀ ds, u ≠ .and ds := fun u hu =>
          ne_and_of_mem_conjuncts (c := .and cs) (by rwa [conjuncts])
        have hlit : ∀ x : Value, ⟨x, .eq⟩ ∈ k.values → x ∈ (Condition.and cs).equalityLiterals := by
          intro x hx
          obtain ⟨u, hu, hleaf, hux⟩ :=
            (exists_equality_of_mem_values hu hk hx).resolve_left (by simp [Conjunction.empty])
          refine mem_equalityLiterals.mpr ⟨u, mem_leaves_iff_conjuncts.mpr ⟨u, hu, ?_⟩, hux⟩
          rw [leaves_of_not_isCombinator hleaf]
          exact List.mem_singleton_self u
        exact absurd hmistaken (hsub (fun _ hl => hl) v (hlit v hv) w (hlit w hw))
  | or cs ih =>
    have hor : Preserved g a (.or cs) := by
      intro d hd b hb
      obtain ⟨ds, hds, hd⟩ := bind_eq_ok_iff.mp hd
      cases hd
      rw [eval] at hb
      rw [answer_disjunction]
      exact evalAny_simplifyArms
        (fun c hc => (ih c hc fun hd => hsub fun l hl => mem_leavesOf.mpr ⟨c, hc, hd l hl⟩).1) hds hb
    refine ⟨hor, fun u hu => ?_⟩
    rw [conjuncts, List.mem_singleton] at hu
    · rwa [hu]
    · simp
  | leaf c hc =>
    refine ⟨preserved_of_not_isCombinator hc, fun u hu => ?_⟩
    rw [conjuncts_of_not_isCombinator hc, List.mem_singleton] at hu
    rw [hu]
    exact preserved_of_not_isCombinator hc

/-! ### Where `nothing` is right -/

theorem eval_of_satisfies {c : Condition} {id : AtomId} {b : Bool} (ha : g.store.atom? id = some a) :
    (c.satisfies g id).answer = .ok b ↔ (c.eval g a).answer = .ok b := by
  have hatom : (Metered.ofExcept (g.store.atom id)).answer = .ok a := by simp [Store.atom, ha]
  have h : ((do eval g (← g.store.atom id) c : Metered Bool)).answer = (c.eval g a).answer :=
    Metered.answer_bind_of_ok hatom
  cases c with
  | any | nothing => rfl
  | _ => rw [← h]; rfl

/-- A store with an atom, of handle 4, that has the given value, and of a type that is no kind's default. -/
def oneValueStore (x : Value) : Store := (Store.initial.registerType "Number" .none []).insert ⟨4, 3, x, []⟩

theorem reachable_oneValueStore (x : Value) : (oneValueStore x).Reachable := by
  have h : (Store.initial.registerType "Number" .none []).Reachable :=
    .defineType .initial (show Store.initial.defineType "Number" .none [] = .ok (3, _) from rfl)
  exact .addAtom h (show (Store.initial.registerType "Number" .none []).addAtom 3 x = .ok (4, _) from rfl)

/-- Two equalities without a type are simplified to `nothing` if their literals differ. -/
private theorem simplify_equalities {x v w : Value} (hv : v.isNull = false) (hw : w.isNull = false)
    (hne : v.partialCompare w ≠ some .eq) :
    simplify (oneValueStore x) (.and [.value v .eq, .value w .eq]) = .ok .nothing := by
  have hvw : v ≠ w := by
    rintro rfl
    exact hne (Value.satisfies_eq_iff_partialCompare.mp (Value.satisfies_eq_iff.mpr (.inl rfl)))
  have htype : ∀ y : Value, (oneValueStore x).typeOfValue y = none := fun _ => rfl
  have hnew : ∀ k : Conjunction, k.values = [⟨v, .eq⟩] → (k.addValue w .eq).values = [⟨v, .eq⟩, ⟨w, .eq⟩] := by
    intro k hk
    rcases Conjunction.addNew_eq k.values fun d => Constraint.eq_of_beq (c := ⟨w, .eq⟩) (d := d) with
      ⟨hmem, -⟩ | h
    · rw [hk, List.mem_singleton] at hmem
      cases hmem
      exact absurd rfl hvw
    · exact h.trans (by rw [hk]; rfl)
  have hk : absorbAll (oneValueStore x) .empty [.value v .eq, .value w .eq] =
      .ok (some ((Conjunction.empty.addValue v .eq).addValue w .eq)) := by
    simp only [absorbAll, absorb, Conjunction.addLeaf, hv, hw, htype]
    rfl
  have hcontra : ((Conjunction.empty.addValue v .eq).addValue w .eq).isContradictory = true := by
    rw [Conjunction.isContradictory, hnew _ rfl]
    simp [Conjunction.anyConflict, Constraint.conflicts, hne]
  rw [simplify, hk]
  show (if _ then _ else _) = _
  rw [if_pos hcontra]
  rfl

private theorem satisfies_equalities {x v w : Value} (hv : v.isNull = false) (hw : w.isNull = false)
    (hxv : x.satisfies .eq v = true) (hxw : x.satisfies .eq w = true) :
    ((Condition.and [.value v .eq, .value w .eq]).satisfies (.ofStore (oneValueStore x)) 4).answer = .ok true := by
  rw [eval_of_satisfies (a := ⟨4, 3, x, []⟩) rfl]
  have hholds : ∀ u : Value, u.isNull = false → x.satisfies .eq u = true →
      (Condition.value u .eq).Holds (.ofStore (oneValueStore x)) ⟨4, 3, x, []⟩ := by
    intro u hu hxu
    rw [Holds, eval_value_of_none hu rfl, hxu]
  exact holds_and.mpr (by simp [hholds v hv hxv, hholds w hw hxw])

/-- Equality literals drawn from a set are safe, in that no condition with a match is simplified to `nothing`,
exactly if no two members of the set are mistaken for each other. -/
theorem nothing_has_no_match_iff (literals : Value → Prop) :
    (∀ (g : Graph) (c : Condition), (∀ v ∈ c.equalityLiterals, literals v) → simplify g.store c = .ok .nothing →
      ∀ id a, g.store.atom? id = some a → (c.satisfies g id).answer ≠ .ok true) ↔
    ∀ v w, literals v → literals w → ¬ Value.Mistaken v w := by
  constructor
  · intro h v w hv hw hmistaken
    obtain ⟨hne, x, hxv, hxw⟩ := Value.exists_satisfies_eq_both_iff.mpr hmistaken
    have hnull : v.isNull = false ∧ w.isNull = false := by
      rcases hmistaken with ⟨m, n, rfl, rfl, -⟩ | ⟨y, z, rfl, rfl, -⟩ <;> exact ⟨rfl, rfl⟩
    have hlit : ∀ u ∈ (Condition.and [.value v .eq, .value w .eq]).equalityLiterals, literals u := by
      simp [equalityLiterals, leaves, leavesOf, equalityLiteral?, hv, hw]
    exact h (.ofStore (oneValueStore x)) _ hlit (simplify_equalities hnull.1 hnull.2 hne) 4 ⟨4, 3, x, []⟩ rfl
      (satisfies_equalities hnull.1 hnull.2 hxv hxw)
  · intro h g c hlit hd id a ha hsat
    have hpres : Preserved g a c := preserved_of_not_mistaken fun v hv w hw => h v w (hlit v hv) (hlit w hw)
    have hfalse := hpres _ hd true ((eval_of_satisfies ha).mp hsat)
    exact not_holds_nothing hfalse

/-- The double `2^53` equals two integers, which do not equal each other. -/
theorem nothing_with_match :
    (oneValueStore (.float ⟨0x4340000000000000⟩)).Reachable ∧
    simplify (oneValueStore (.float ⟨0x4340000000000000⟩))
      (.and [.value (.int 9007199254740992) .eq, .value (.int 9007199254740993) .eq]) = .ok .nothing ∧
    ((Condition.and [.value (.int 9007199254740992) .eq, .value (.int 9007199254740993) .eq]).satisfies
      (.ofStore (oneValueStore (.float ⟨0x4340000000000000⟩))) 4).answer = .ok true :=
  ⟨reachable_oneValueStore _, simplify_equalities rfl rfl (by decide +kernel),
    satisfies_equalities rfl rfl (by decide +kernel) (by decide +kernel)⟩

end Condition

end HyperQuery
