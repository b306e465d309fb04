import HyperQuery.Proofs.Condition.NormalForm

/-!
# Distributing over one disjunction at a time

The arms of a condition are the products of the arms of its parts. They can also be found by rewriting: a conjunction
is distributed over the first disjunction among its rewritten conjuncts only, and the branches, whose first conjuncts
are in normal form already and whose last ones are not, are rewritten once more (`MultipliesTo`). This ends for every
condition, since each branch has fewer arms than the conjunction it comes from (`exists_multipliesTo`), and it ends in
the disjunctive normal form (`multipliesTo_iff`).
-/

namespace HyperQuery

namespace Condition

variable {c d l : Condition} {cs ds kept arm : List Condition}

/-- The arms of a disjunction; any other condition is its own and only arm. -/
def disjuncts : Condition → List Condition
  | .or arms => arms
  | c => [c]

mutual

/-- Rewriting the first condition, from the inside, ends in the second. -/
inductive MultipliesTo : Condition → Condition → Prop
  | and {cs : List Condition} {d : Condition} : Distributes [] cs d → MultipliesTo (.and cs) d
  | or {cs ds : List Condition} : Collects cs ds → MultipliesTo (.or cs) (disjunction ds)
  | leaf {c : Condition} : c.isCombinator = false → MultipliesTo c c

/-- The conjunction of the kept conditions, which are rewritten already, and those of the list is rewritten to the
condition. -/
inductive Distributes : List Condition → List Condition → Condition → Prop
  | nil {kept : List Condition} : Distributes kept [] (conjunction kept)
  | and {kept cs nested : List Condition} {c d : Condition} : MultipliesTo c (.and nested) →
      Distributes (kept ++ nested) cs d → Distributes kept (c :: cs) d
  | or {kept cs arms ds : List Condition} {c : Condition} : MultipliesTo c (.or arms) →
      Collects (arms.map fun arm => .and (kept ++ arm :: cs)) ds → Distributes kept (c :: cs) (disjunction ds)
  | leaf {kept cs : List Condition} {c d l : Condition} : MultipliesTo c l → l.isCombinator = false →
      Distributes (kept ++ [l]) cs d → Distributes kept (c :: cs) d

/-- The rewritten conditions of the first list have the arms of the second. -/
inductive Collects : List Condition → List Condition → Prop
  | nil : Collects [] []
  | cons {c d : Condition} {cs ds : List Condition} : MultipliesTo c d → Collects cs ds →
      Collects (c :: cs) (d.disjuncts ++ ds)

end

/-! ### Arms and their number -/

theorem length_armProducts_cons : (armProducts (c :: cs)).length = c.arms.length * (armProducts cs).length := by
  simp [armProducts, List.length_flatMap, List.map_const']

theorem arms_and (h : cs ≠ []) : (Condition.and cs).arms = armProducts cs := by
  match cs, h with
  | c :: cs, _ => rw [arms]

theorem length_arms_and : (Condition.and cs).arms.length = (armProducts cs).length := by
  cases cs with
  | nil => rfl
  | cons c cs => rw [arms_and (by simp)]

private theorem length_armProducts_pos_of (h : ∀ c ∈ cs, 0 < c.arms.length) : 0 < (armProducts cs).length := by
  induction cs with
  | nil => simp [armProducts]
  | cons c cs ih =>
    rw [length_armProducts_cons]
    exact Nat.mul_pos (h c (by simp)) (ih fun d hd => h d (by simp [hd]))

theorem length_arms_pos : 0 < c.arms.length := by
  induction c using combinatorInduction with
  | and cs ih =>
    rw [length_arms_and]
    exact length_armProducts_pos_of ih
  | or cs ih =>
    cases cs with
    | nil => simp [arms]
    | cons c cs =>
      have hc := ih c (by simp)
      rw [arms, armLists, List.length_append]
      omega
  | leaf c h => simp [arms_of_not_isCombinator h]

theorem length_armProducts_pos : 0 < (armProducts cs).length := length_armProducts_pos_of fun _ _ => length_arms_pos

private theorem exists_mem_armProducts (hc : c ∈ cs) (harm : arm ∈ c.arms) (hl : l ∈ arm) :
    ∃ product ∈ armProducts cs, l ∈ product := by
  induction cs with
  | nil => cases hc
  | cons d cs ih =>
    simp only [armProducts, List.mem_flatMap, List.mem_map]
    rcases List.mem_cons.mp hc with rfl | hc
    · obtain ⟨rest, hrest⟩ : ∃ rest, rest ∈ armProducts cs := List.exists_mem_of_length_pos length_armProducts_pos
      exact ⟨arm ++ rest, ⟨arm, harm, rest, hrest, rfl⟩, List.mem_append_left _ hl⟩
    · obtain ⟨rest, hrest, hl⟩ := ih hc
      obtain ⟨first, hfirst⟩ := List.exists_mem_of_length_pos (length_arms_pos (c := d))
      exact ⟨first ++ rest, ⟨first, hfirst, rest, hrest, rfl⟩, List.mem_append_right _ hl⟩

/-- Every leaf comes in one of the arms. -/
theorem exists_mem_arm_of_mem_leaves (hl : l ∈ c.leaves) : ∃ arm ∈ c.arms, l ∈ arm := by
  induction c using combinatorInduction with
  | and cs ih =>
    obtain ⟨c, hc, hl⟩ := mem_leavesOf.mp hl
    obtain ⟨arm, harm, hl⟩ := ih c hc hl
    rw [arms_and (List.ne_nil_of_mem hc)]
    exact exists_mem_armProducts hc harm hl
  | or cs ih =>
    obtain ⟨c, hc, hl⟩ := mem_leavesOf.mp hl
    obtain ⟨arm, harm, hmem⟩ := ih c hc hl
    cases cs with
    | nil => cases hc
    | cons d cs => exact ⟨arm, mem_armLists.mpr ⟨c, hc, harm⟩, hmem⟩
  | leaf c h =>
    rw [arms_of_not_isCombinator h]
    rw [leaves_of_not_isCombinator h] at hl
    exact ⟨[c], List.mem_singleton_self _, hl⟩

theorem length_arms_le_armProducts (hc : c ∈ cs) : c.arms.length ≤ (armProducts cs).length := by
  induction cs with
  | nil => cases hc
  | cons d cs ih =>
    rw [length_armProducts_cons]
    rcases List.mem_cons.mp hc with rfl | hc
    · exact Nat.le_mul_of_pos_right _ length_armProducts_pos
    · exact Nat.le_trans (ih hc) (Nat.le_mul_of_pos_left _ length_arms_pos)

theorem length_arms_le_or (hc : c ∈ cs) : c.arms.length ≤ (Condition.or cs).arms.length := by
  cases cs with
  | nil => cases hc
  | cons d ds =>
    rw [arms]
    generalize d :: ds = cs at hc
    induction cs with
    | nil => cases hc
    | cons d cs ih =>
      rw [armLists, List.length_append]
      rcases List.mem_cons.mp hc with rfl | hc
      · exact Nat.le_add_right _ _
      · exact Nat.le_trans (ih hc) (Nat.le_add_left _ _)

theorem ne_nil_of_mem_arms (harm : arm ∈ c.arms) : arm ≠ [] := by
  induction c using combinatorInduction generalizing arm with
  | and cs ih =>
    cases cs with
    | nil => simp_all [arms]
    | cons c cs =>
      rw [arms, armProducts, List.mem_flatMap] at harm
      obtain ⟨first, hfirst, harm⟩ := harm
      obtain ⟨rest, -, rfl⟩ := List.mem_map.mp harm
      simp [ih c (by simp) hfirst]
  | or cs ih =>
    cases cs with
    | nil => simp_all [arms]
    | cons c cs =>
      obtain ⟨d, hd, harm⟩ := mem_armLists.mp harm
      exact ih d hd harm
  | leaf c h => simp_all [arms_of_not_isCombinator h]

private theorem isCombinator_of_mem_kept (hkept : ∀ l ∈ kept, l.isCombinator = false) (harms : c.arms = [arm]) :
    ∀ l ∈ kept ++ arm, l.isCombinator = false := by
  intro l hl
  rcases List.mem_append.mp hl with hl | hl
  · exact hkept l hl
  · exact isCombinator_of_mem_arm (harms.symm ▸ List.mem_singleton_self arm) hl

theorem armProducts_append (cs ds : List Condition) :
    armProducts (cs ++ ds) = (armProducts cs).flatMap fun arm => (armProducts ds).map fun rest => arm ++ rest := by
  induction cs with
  | nil => simp [armProducts]
  | cons c cs ih => simp [armProducts, ih, List.flatMap_assoc, List.flatMap_map, List.map_flatMap, Function.comp_def]

theorem armProducts_of_leaves (h : ∀ l ∈ kept, l.isCombinator = false) : armProducts kept = [kept] := by
  induction kept with
  | nil => rfl
  | cons l kept ih =>
    rw [armProducts, arms_of_not_isCombinator (h l (by simp)), ih fun m hm => h m (by simp [hm])]
    rfl

theorem arms_conjunction (h : ∀ l ∈ arm, l.isCombinator = false) (hne : arm ≠ []) : (conjunction arm).arms = [arm] := by
  match arm, hne with
  | [l], _ => exact arms_of_not_isCombinator (h l (by simp))
  | l :: m :: arm, _ => exact armProducts_of_leaves h

/-- A conjunction of kept leaves, an arm and further conditions has the arms of the further conditions, each with the
kept leaves and the arm in front. -/
theorem arms_and_branch {part : List Condition} (hkept : ∀ l ∈ kept, l.isCombinator = false) (hpart : part ∈ c.arms) :
    (Condition.and (kept ++ conjunction part :: cs)).arms = (armProducts cs).map fun arm => kept ++ part ++ arm := by
  have hleaves : ∀ l ∈ part, l.isCombinator = false := fun l => isCombinator_of_mem_arm hpart
  rw [arms_and (by simp), armProducts_append, armProducts_of_leaves hkept, armProducts,
    arms_conjunction hleaves (ne_nil_of_mem_arms hpart)]
  simp

/-! ### Normal forms -/

theorem toNormalForm_and (cs : List Condition) :
    (Condition.and cs).toNormalForm = disjunction ((armProducts cs).map conjunction) := by
  cases cs with
  | nil => rfl
  | cons c cs => rw [toNormalForm, arms_and (by simp)]

theorem toNormalForm_or (cs : List Condition) :
    (Condition.or cs).toNormalForm = disjunction (cs.flatMap fun c => c.arms.map conjunction) := by
  cases cs with
  | nil => rfl
  | cons c cs =>
    rw [toNormalForm, arms]
    congr 1
    generalize c :: cs = cs
    induction cs with
    | nil => rfl
    | cons c cs ih => rw [armLists, List.map_append, ih, List.flatMap_cons]

/-- The normal form is a leaf, a conjunction of the members of one arm, or a disjunction of several arms. -/
theorem toNormalForm_cases (c : Condition) :
    (∃ l, c.arms = [[l]] ∧ c.toNormalForm = l ∧ l.isCombinator = false) ∨
    (∃ arm, c.arms = [arm] ∧ c.toNormalForm = .and arm ∧ conjunction arm = .and arm) ∨
    (2 ≤ c.arms.length ∧ c.toNormalForm = .or (c.arms.map conjunction)) := by
  match h : c.arms with
  | [] => simpa [h] using length_arms_pos (c := c)
  | [[]] => exact absurd rfl (ne_nil_of_mem_arms (h.symm ▸ List.mem_singleton_self []))
  | [[l]] =>
    have hl : l.isCombinator = false := isCombinator_of_mem_arm (h.symm ▸ List.mem_singleton_self [l]) (by simp)
    exact .inl ⟨l, rfl, by rw [toNormalForm, h]; rfl, hl⟩
  | [l :: m :: arm] => exact .inr (.inl ⟨_, rfl, by rw [toNormalForm, h]; rfl, rfl⟩)
  | arm :: arm' :: arms => exact .inr (.inr ⟨by simp, by rw [toNormalForm, h]; rfl⟩)

theorem arms_of_toNormalForm_eq_leaf (h : c.toNormalForm = l) (hl : l.isCombinator = false) : c.arms = [[l]] := by
  obtain ⟨m, harms, hm, -⟩ | ⟨arm, -, hc, -⟩ | ⟨-, hc⟩ := toNormalForm_cases c
  · rw [harms, ← h, hm]
  · rw [← h, hc] at hl
    cases hl
  · rw [← h, hc] at hl
    cases hl

theorem arms_of_toNormalForm_eq_and (h : c.toNormalForm = .and arm) : c.arms = [arm] := by
  obtain ⟨l, -, hc, hl⟩ | ⟨arm', harms, hc, -⟩ | ⟨-, hc⟩ := toNormalForm_cases c
  · rw [← hc, h] at hl
    cases hl
  · cases hc.symm.trans h
    exact harms
  · cases hc.symm.trans h

theorem arms_of_toNormalForm_eq_or (h : c.toNormalForm = .or ds) : ds = c.arms.map conjunction ∧ 2 ≤ c.arms.length := by
  obtain ⟨l, -, hc, hl⟩ | ⟨arm, -, hc, -⟩ | ⟨hlength, hc⟩ := toNormalForm_cases c
  · rw [← hc, h] at hl
    cases hl
  · cases hc.symm.trans h
  · cases hc.symm.trans h
    exact ⟨rfl, hlength⟩

theorem disjuncts_of_not_isCombinator (h : l.isCombinator = false) : l.disjuncts = [l] := by
  cases l <;> first | rfl | simp [isCombinator] at h

theorem disjuncts_toNormalForm (c : Condition) : c.toNormalForm.disjuncts = c.arms.map conjunction := by
  obtain ⟨l, harms, hc, hl⟩ | ⟨arm, harms, hc, harm⟩ | ⟨-, hc⟩ := toNormalForm_cases c
  · rw [harms, hc, disjuncts_of_not_isCombinator hl]
    rfl
  · rw [harms, hc, List.map_singleton, harm]
    rfl
  · rw [hc]
    rfl

/-! ### Rewriting ends in the normal form -/

/-- What a condition is rewritten to is its normal form. -/
theorem MultipliesTo.eq_toNormalForm (h : MultipliesTo c d) : d = c.toNormalForm := by
  refine @MultipliesTo.rec (fun c d _ => d = c.toNormalForm)
    (fun kept cs d _ => (∀ l ∈ kept, l.isCombinator = false) →
      d = disjunction ((armProducts cs).map fun arm => conjunction (kept ++ arm)))
    (fun cs ds _ => ds = cs.flatMap fun c => c.arms.map conjunction)
    ?and ?or ?leaf ?keptNil ?keptAnd ?keptOr ?keptLeaf ?nil ?cons c d h
  case and =>
    intro cs d _ ih
    rw [toNormalForm_and, ih (by simp)]
    rfl
  case or =>
    intro cs ds _ ih
    rw [toNormalForm_or, ih]
  case leaf =>
    intro c hc
    rw [toNormalForm, arms_of_not_isCombinator hc]
    rfl
  case keptNil =>
    intro kept _
    simp [armProducts, disjunction]
  case keptAnd =>
    intro kept cs nested c d _ _ hc ih hkept
    have harms := arms_of_toNormalForm_eq_and hc.symm
    rw [ih (isCombinator_of_mem_kept hkept harms), armProducts, harms]
    simp [Function.comp_def]
  case keptOr =>
    intro kept cs arms ds c _ _ hc ih hkept
    obtain ⟨rfl, -⟩ := arms_of_toNormalForm_eq_or hc.symm
    -- the branches of an arm have its products with the arms of the remaining conditions
    have hbranch : ∀ part ∈ c.arms, (Condition.and (kept ++ conjunction part :: cs)).arms.map conjunction =
        (armProducts cs).map fun arm => conjunction (kept ++ (part ++ arm)) := by
      intro part hpart
      rw [arms_and_branch hkept hpart]
      simp
    rw [ih, armProducts]
    simp only [List.flatMap_def, List.map_flatten, List.map_map]
    congr 2
    exact List.map_congr_left fun part hpart => by simpa [Function.comp_def] using hbranch part hpart
  case keptLeaf =>
    intro kept cs c d l _ hl _ hc ih hkept
    have harms := arms_of_toNormalForm_eq_leaf hc.symm hl
    rw [ih (isCombinator_of_mem_kept hkept harms), armProducts, harms]
    simp [Function.comp_def]
  case nil => rfl
  case cons =>
    intro c d cs ds _ _ hc ih
    rw [hc, ih, disjuncts_toNormalForm, List.flatMap_cons]

/-! ### Rewriting ends -/

private theorem exists_collects {cs : List Condition} (h : ∀ c ∈ cs, ∃ d, MultipliesTo c d) : ∃ ds, Collects cs ds := by
  induction cs with
  | nil => exact ⟨[], .nil⟩
  | cons c cs ih =>
    obtain ⟨d, hd⟩ := h c (by simp)
    obtain ⟨ds, hds⟩ := ih fun c hc => h c (by simp [hc])
    exact ⟨_, .cons hd hds⟩

/-- A conjunction is rewritten if its conjuncts are and all conditions that have fewer arms than it has. -/
private theorem exists_distributes {kept cs : List Condition} (hkept : ∀ l ∈ kept, l.isCombinator = false)
    (h : ∀ c ∈ cs, ∃ d, MultipliesTo c d)
    (hfewer : ∀ c : Condition, c.arms.length < (armProducts cs).length → ∃ d, MultipliesTo c d) :
    ∃ d, Distributes kept cs d := by
  induction cs generalizing kept with
  | nil => exact ⟨_, .nil⟩
  | cons c cs ih =>
    obtain ⟨d, hd⟩ := h c (by simp)
    have hcs : ∀ c ∈ cs, ∃ d, MultipliesTo c d := fun d hd => h d (by simp [hd])
    have hc := hd.eq_toNormalForm.symm
    rw [length_armProducts_cons] at hfewer
    obtain ⟨l, harms, hl, hleaf⟩ | ⟨arm, harms, harm, -⟩ | ⟨hlength, hor⟩ := toNormalForm_cases c
    · obtain ⟨e, he⟩ := ih (isCombinator_of_mem_kept hkept harms) hcs (by simpa [harms] using hfewer)
      exact ⟨e, .leaf (hl ▸ hc ▸ hd) hleaf he⟩
    · obtain ⟨e, he⟩ := ih (isCombinator_of_mem_kept hkept harms) hcs (by simpa [harms] using hfewer)
      exact ⟨e, .and (harm ▸ hc ▸ hd) he⟩
    · -- a branch has the arms of the remaining conditions only, and the disjunction has at least two arms
      have hbranch : ∀ b ∈ (c.arms.map conjunction).map fun arm => Condition.and (kept ++ arm :: cs),
          ∃ d, MultipliesTo b d := by
        intro b hb
        rw [List.map_map] at hb
        obtain ⟨part, hpart, rfl⟩ := List.mem_map.mp hb
        refine hfewer _ ?_
        rw [Function.comp_apply, arms_and_branch hkept hpart, List.length_map]
        have hpos : 0 < (armProducts cs).length := length_armProducts_pos
        calc (armProducts cs).length < 2 * (armProducts cs).length := by omega
          _ ≤ c.arms.length * (armProducts cs).length := Nat.mul_le_mul_right _ hlength
      obtain ⟨ds, hds⟩ := exists_collects hbranch
      exact ⟨_, .or (hor ▸ hc ▸ hd) hds⟩

/-- There is a derivation for every condition: rewriting ends. -/
theorem exists_multipliesTo (c : Condition) : ∃ d, MultipliesTo c d := by
  suffices h : ∀ n, ∀ c : Condition, c.arms.length ≤ n → ∃ d, MultipliesTo c d from h _ c (Nat.le_refl _)
  intro n
  -- fewer arms first, and smaller conditions among those that have the same number of arms
  induction n with
  | zero =>
    intro c hc
    have hpos := length_arms_pos (c := c)
    omega
  | succ n ihn =>
    intro c
    induction c using combinatorInduction with
    | and cs ih =>
      intro hc
      rw [length_arms_and] at hc
      have hchild : ∀ c ∈ cs, ∃ d, MultipliesTo c d := fun c hmem =>
        ih c hmem (Nat.le_trans (length_arms_le_armProducts hmem) hc)
      have hkept : ∀ l ∈ ([] : List Condition), l.isCombinator = false := by simp
      obtain ⟨d, hd⟩ := exists_distributes hkept hchild fun c hfewer => ihn c (by omega)
      exact ⟨d, .and hd⟩
    | or cs ih =>
      intro hc
      obtain ⟨ds, hds⟩ := exists_collects fun c hmem => ih c hmem (Nat.le_trans (length_arms_le_or hmem) hc)
      exact ⟨_, .or hds⟩
    | leaf c h => exact fun _ => ⟨c, .leaf h⟩

/-- Distributing over one disjunction at a time turns a condition into its disjunctive normal form, and into nothing
else. -/
theorem multipliesTo_iff : MultipliesTo c d ↔ d = c.toNormalForm := by
  constructor
  · exact MultipliesTo.eq_toNormalForm
  · rintro rfl
    obtain ⟨d, hd⟩ := exists_multipliesTo c
    exact hd.eq_toNormalForm ▸ hd

end Condition

end HyperQuery
