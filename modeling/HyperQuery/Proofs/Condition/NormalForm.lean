import HyperQuery.Proofs.Condition.Truth

/-!
# Multiplying out keeps the meaning

An arm holds if all its conditions do. A condition whose leaves are decided holds exactly when one of its arms holds
(`holds_iff_exists_arm`), and the conditions in the arms are leaves of the condition, apart from `any` and `nothing`,
which stand for empty conjunctions and disjunctions (`mem_leaves_of_mem_arm`). So the disjunctive normal form is
decided by the same atoms, in the same way (`eval_toNormalForm`).
-/

namespace HyperQuery

namespace Condition

variable {g : Graph} {a : Atom}

/-- All conditions of the arm are true of the atom. -/
def ArmHolds (g : Graph) (a : Atom) (arm : List Condition) : Prop := ∀ l ∈ arm, l.Holds g a

@[simp] theorem armHolds_nil : ArmHolds g a [] := by simp [ArmHolds]

theorem armHolds_append {xs ys : List Condition} :
    ArmHolds g a (xs ++ ys) ↔ ArmHolds g a xs ∧ ArmHolds g a ys := by
  simp only [ArmHolds, List.mem_append]
  exact ⟨fun h => ⟨fun l hl => h l (.inl hl), fun l hl => h l (.inr hl)⟩,
    fun h l hl => hl.elim (h.1 l) (h.2 l)⟩

theorem arms_of_not_isCombinator {c : Condition} (h : c.isCombinator = false) : c.arms = [[c]] := by
  cases c <;> first | rfl | simp [isCombinator] at h

/-! ### Members of arms -/

private theorem mem_armProducts {cs : List Condition} {arm : List Condition} {l : Condition}
    (harm : arm ∈ armProducts cs) (hl : l ∈ arm) : ∃ c ∈ cs, ∃ part ∈ c.arms, l ∈ part := by
  induction cs generalizing arm with
  | nil =>
    rw [armProducts, List.mem_singleton] at harm
    simp [harm] at hl
  | cons c cs ih =>
    simp only [armProducts, List.mem_flatMap, List.mem_map] at harm
    obtain ⟨first, hfirst, rest, hrest, rfl⟩ := harm
    rcases List.mem_append.mp hl with hl | hl
    · exact ⟨c, by simp, first, hfirst, hl⟩
    · obtain ⟨d, hd, part, hpart, hl⟩ := ih hrest hl
      exact ⟨d, by simp [hd], part, hpart, hl⟩

theorem mem_armLists {cs : List Condition} {arm : List Condition} :
    arm ∈ armLists cs ↔ ∃ c ∈ cs, arm ∈ c.arms := by
  induction cs with
  | nil => simp [armLists]
  | cons c cs ih => simp [armLists, ih]

theorem mem_leaves_of_mem_arm {c l : Condition} {arm : List Condition} (harm : arm ∈ c.arms) (hl : l ∈ arm) :
    l ∈ c.leaves ∨ l = .any ∨ l = .nothing := by
  induction c using combinatorInduction generalizing arm with
  | and cs ih =>
    cases cs with
    | nil =>
      rw [arms, List.mem_singleton] at harm
      rw [harm, List.mem_singleton] at hl
      exact .inr (.inl hl)
    | cons c cs =>
      obtain ⟨d, hd, part, hpart, hl⟩ := mem_armProducts harm hl
      exact (ih d hd hpart hl).imp_left fun h => mem_leavesOf.mpr ⟨d, hd, h⟩
  | or cs ih =>
    cases cs with
    | nil =>
      rw [arms, List.mem_singleton] at harm
      rw [harm, List.mem_singleton] at hl
      exact .inr (.inr hl)
    | cons c cs =>
      obtain ⟨d, hd, hpart⟩ := mem_armLists.mp harm
      exact (ih d hd hpart hl).imp_left fun h => mem_leavesOf.mpr ⟨d, hd, h⟩
  | leaf c h =>
    rw [arms_of_not_isCombinator h, List.mem_singleton] at harm
    rw [leaves_of_not_isCombinator h]
    exact .inl (harm ▸ hl)

theorem isCombinator_of_mem_arm {c l : Condition} {arm : List Condition} (harm : arm ∈ c.arms) (hl : l ∈ arm) :
    l.isCombinator = false := by
  rcases mem_leaves_of_mem_arm harm hl with hl | rfl | rfl
  · exact isCombinator_of_mem_leaves hl
  · rfl
  · rfl

/-- The atom decides the members of the arms if it decides the leaves. -/
theorem decided_of_mem_arm {c l : Condition} {arm : List Condition} (h : ∀ l ∈ c.leaves, l.Decided g a)
    (harm : arm ∈ c.arms) (hl : l ∈ arm) : l.Decided g a := by
  rcases mem_leaves_of_mem_arm harm hl with hl | rfl | rfl
  · exact h l hl
  · exact holds_any.decided
  · exact decided_nothing

/-! ### Truth of arms -/

private theorem forall_holds_iff_armProducts {cs : List Condition}
    (ih : ∀ c ∈ cs, (c.Holds g a ↔ ∃ arm ∈ c.arms, ArmHolds g a arm)) :
    (∀ c ∈ cs, c.Holds g a) ↔ ∃ arm ∈ armProducts cs, ArmHolds g a arm := by
  induction cs with
  | nil => simp [armProducts]
  | cons c cs ihcs =>
    have hc := ih c (by simp)
    have hcs := ihcs fun d hd => ih d (by simp [hd])
    simp only [List.forall_mem_cons, armProducts, List.mem_flatMap, List.mem_map]
    rw [hc, hcs]
    constructor
    · rintro ⟨⟨first, hfirst, h1⟩, rest, hrest, h2⟩
      exact ⟨_, ⟨first, hfirst, rest, hrest, rfl⟩, armHolds_append.mpr ⟨h1, h2⟩⟩
    · rintro ⟨_, ⟨first, hfirst, rest, hrest, rfl⟩, h⟩
      obtain ⟨h1, h2⟩ := armHolds_append.mp h
      exact ⟨⟨first, hfirst, h1⟩, rest, hrest, h2⟩

theorem holds_iff_exists_arm {c : Condition} (h : ∀ l ∈ c.leaves, l.Decided g a) :
    c.Holds g a ↔ ∃ arm ∈ c.arms, ArmHolds g a arm := by
  induction c using combinatorInduction with
  | and cs ih =>
    have ih : ∀ c ∈ cs, (c.Holds g a ↔ ∃ arm ∈ c.arms, ArmHolds g a arm) := fun c hc =>
      ih c hc fun l hl => h l (mem_leavesOf.mpr ⟨c, hc, hl⟩)
    cases cs with
    | nil => simp [holds_and, arms, ArmHolds]
    | cons c cs =>
      rw [holds_and, arms]
      exact forall_holds_iff_armProducts ih
  | or cs ih =>
    have hleaf : ∀ c ∈ cs, ∀ l ∈ c.leaves, l.Decided g a := fun c hc l hl =>
      h l (mem_leavesOf.mpr ⟨c, hc, hl⟩)
    rw [holds_or fun c hc => decided_of_leaves (hleaf c hc)]
    cases cs with
    | nil => simp [arms, ArmHolds]
    | cons c cs =>
      simp only [arms, mem_armLists]
      constructor
      · rintro ⟨d, hd, hh⟩
        obtain ⟨arm, harm, hh⟩ := (ih d hd (hleaf d hd)).mp hh
        exact ⟨arm, ⟨d, hd, harm⟩, hh⟩
      · rintro ⟨arm, ⟨d, hd, harm⟩, hh⟩
        exact ⟨d, hd, (ih d hd (hleaf d hd)).mpr ⟨arm, harm, hh⟩⟩
  | leaf c hc => simp [arms_of_not_isCombinator hc, ArmHolds]

/-! ### The normal form -/

theorem mem_leaves_toNormalForm {c l : Condition} (hl : l ∈ c.toNormalForm.leaves) :
    l ∈ c.leaves ∨ l = .any ∨ l = .nothing := by
  rcases mem_leaves_disjunction hl with hl | hl
  · obtain ⟨d, hd, hl⟩ := mem_leavesOf.mp hl
    obtain ⟨arm, harm, rfl⟩ := List.mem_map.mp hd
    rcases mem_leaves_conjunction hl with hl | hl
    · obtain ⟨m, hm, hl⟩ := mem_leavesOf.mp hl
      have hmem := mem_leaves_of_mem_arm harm hm
      have hleaf : m.leaves = [m] := by
        rcases hmem with hm | rfl | rfl
        · exact leaves_of_not_isCombinator (isCombinator_of_mem_leaves hm)
        · rfl
        · rfl
      rw [hleaf, List.mem_singleton] at hl
      rwa [hl]
    · exact .inr (.inl hl)
  · exact .inr (.inr hl)

theorem decided_toNormalForm {c : Condition} (h : ∀ l ∈ c.leaves, l.Decided g a) :
    c.toNormalForm.Decided g a := by
  refine decided_disjunction fun d hd => ?_
  obtain ⟨arm, harm, rfl⟩ := List.mem_map.mp hd
  exact decided_conjunction fun l hl => decided_of_mem_arm h harm hl

theorem holds_toNormalForm {c : Condition} (h : ∀ l ∈ c.leaves, l.Decided g a) :
    c.toNormalForm.Holds g a ↔ c.Holds g a := by
  have hd : ∀ d ∈ c.arms.map conjunction, d.Decided g a := by
    intro d hd
    obtain ⟨arm, harm, rfl⟩ := List.mem_map.mp hd
    exact decided_conjunction fun l hl => decided_of_mem_arm h harm hl
  rw [holds_iff_exists_arm h, toNormalForm, holds_disjunction hd]
  constructor
  · rintro ⟨_, hd, hh⟩
    obtain ⟨arm, harm, rfl⟩ := List.mem_map.mp hd
    exact ⟨arm, harm, holds_conjunction.mp hh⟩
  · rintro ⟨arm, harm, hh⟩
    exact ⟨_, List.mem_map.mpr ⟨arm, harm, rfl⟩, holds_conjunction.mpr hh⟩

/-- On an atom that decides every leaf of a condition, the disjunctive normal form has the answer of the
condition. -/
theorem eval_toNormalForm {c : Condition} (h : ∀ l ∈ c.leaves, ∃ b, (l.eval g a).answer = .ok b) :
    ∃ b, (c.toNormalForm.eval g a).answer = .ok b ∧ (c.eval g a).answer = .ok b := by
  obtain ⟨b, hb⟩ := decided_of_leaves h
  exact ⟨b, (answer_eq_of_holds_iff (decided_toNormalForm h) ⟨b, hb⟩ (holds_toNormalForm h)).trans hb, hb⟩

/-- A link from the type of types to itself, under a disjunction with an empty conjunction beside it and a nested
empty disjunction. -/
theorem eval_toNormalForm_nested :
    (∀ l ∈ (Condition.and [.or [.incident 4, .and []], .or [.targetOf 1, .or []], .link [.any]]).leaves,
      ∃ b, (l.eval (.ofStore .initial) ⟨3, 2, .null, [1]⟩).answer = .ok b) ∧
    ∃ b, ((Condition.and [.or [.incident 4, .and []], .or [.targetOf 1, .or []], .link [.any]]).toNormalForm.eval
        (.ofStore .initial) ⟨3, 2, .null, [1]⟩).answer = .ok b ∧
      ((Condition.and [.or [.incident 4, .and []], .or [.targetOf 1, .or []], .link [.any]]).eval
        (.ofStore .initial) ⟨3, 2, .null, [1]⟩).answer = .ok b := by
  have h : ∀ l ∈ (Condition.and [.or [.incident 4, .and []], .or [.targetOf 1, .or []], .link [.any]]).leaves,
      ∃ b, (l.eval (.ofStore .initial) ⟨3, 2, .null, [1]⟩).answer = .ok b := by
    simp only [leaves, leavesOf, List.cons_append, List.nil_append, List.append_nil, List.forall_mem_cons]
    exact ⟨⟨false, rfl⟩, ⟨false, rfl⟩, ⟨true, rfl⟩, by simp⟩
  exact ⟨h, eval_toNormalForm h⟩

end Condition

end HyperQuery
