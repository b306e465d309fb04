import HyperQuery.Proofs.Condition.NormalForm
import HyperQuery.Proofs.Plan.Leaf

/-!
# Preparation

Preparing a condition gives a condition in disjunctive normal form, whose leaves are of the same kind as those of the
condition (`normalFormOf_simplify_toNormalForm`); in particular they can be planned, if those of the condition can
(`ready_simplify_toNormalForm`). If no two equality literals are mistaken, the prepared condition holds of the same atoms
as the condition itself (`holds_simplify_toNormalForm`).
-/

namespace HyperQuery

namespace Condition

variable {g : Graph} {c d l : Condition} {cs : List Condition}

/-! ### Leaves that can be planned -/

theorem plannable_any : Plannable g .any := ⟨fun _ _ _ => holds_any.decided, by simp [walkStart?], by simp, by simp⟩

theorem plannable_nothing : Plannable g .nothing :=
  ⟨fun _ _ _ => decided_nothing, by simp [walkStart?], by simp, by simp⟩

theorem plannable_of_coreCondition (hl : ∀ a, l.Decided g a) (h : Conjunction.CoreCondition g.store l) :
    l.Plannable g := by
  refine ⟨fun _ a _ => hl a, fun id hid => ?_, fun ty path index literal op hind => ?_, fun operand mapping hmap => ?_⟩
  · cases h <;> simp [walkStart?] at hid
  · subst hind
    cases h with
    | indexedPart hindex => exact hindex
  · subst hmap
    cases h

/-- The leaves of a condition without mappings can be planned, if every stored atom decides the constraints it is made
of, walks start at stored atoms, and indexes are the registered ones. -/
theorem plannable_of_mem_leaves (hmap : c.mapDepth = 0)
    (hdecided : ∀ b ∈ c.basics, ∀ id a, g.store.atom? id = some a → b.Decided g a)
    (hstart : ∀ b ∈ c.basics, ∀ id, b.walkStart? = some id → ∃ a, g.store.atom? id = some a)
    (hindex : ∀ ty path index literal op, .indexedPart ty path index literal op ∈ c.basics →
      g.store.partIndex? ty path = some index) (hl : l ∈ c.leaves) : l.Plannable g := by
  have hbasics : ∀ b ∈ l.basics, b ∈ c.basics := fun b hb => mem_basics_iff_leaves.mpr ⟨l, hl, hb⟩
  refine ⟨fun id a ha => ?_, fun id hid => ?_, fun ty path index literal op h => ?_, fun operand mapping h => ?_⟩
  · exact decided_of_basics l fun b hb => hdecided b (hbasics b hb) id a ha
  · have hself : l ∈ l.basics := by
      cases l with
      | walk w => exact List.mem_singleton_self _
      | subsumes x => exact List.mem_singleton_self _
      | subsumed x => exact List.mem_singleton_self _
      | _ => simp [walkStart?] at hid
    exact hstart l (hbasics l hself) id hid
  · subst h
    exact hindex ty path index literal op (hbasics _ (List.mem_singleton_self _))
  · subst h
    have hdepth := mapDepth_le_of_mem_leaves hl
    rw [hmap, mapDepth] at hdepth
    omega

/-! ### Normal forms of leaves of a kind -/

/-- The arms of a condition in disjunctive normal form. -/
def alternatives : Condition → List Condition
  | .or arms => arms
  | c => [c]

theorem alternatives_of_isArm (h : d.isArm = true) : d.alternatives = [d] := by
  cases d with
  | or cs => simp [isArm, isCombinator] at h
  | _ => rfl

theorem mem_leaves_iff_alternatives : l ∈ c.leaves ↔ ∃ d ∈ c.alternatives, l ∈ d.leaves := by
  cases c with
  | or cs => exact mem_leavesOf
  | _ => simp [alternatives]

private theorem mem_spread_of_isArm {e : Condition} (h : d.isArm = true) : e ∈ d.spread ↔ e = d ∧ d ≠ .nothing := by
  cases d with
  | or cs => simp [isArm, isCombinator] at h
  | _ => simp [spread]

private theorem simplifyArms_cases {ds : List Condition} (hds : simplifyArms g.store cs = .ok ds) :
    (∀ c ∈ cs, ∃ d, simplify g.store c = .ok d ∧ ∀ e ∈ d.spread, e ∈ ds) ∧
      ∀ e ∈ ds, ∃ c ∈ cs, ∃ d, simplify g.store c = .ok d ∧ e ∈ d.spread := by
  induction cs generalizing ds with
  | nil =>
    cases hds
    simp
  | cons c cs ih =>
    obtain ⟨first, hfirst, hds⟩ := bind_eq_ok_iff.mp hds
    obtain ⟨rest, hrest, hds⟩ := bind_eq_ok_iff.mp hds
    cases hds
    obtain ⟨hall, hfrom⟩ := ih hrest
    refine ⟨fun b hb => ?_, fun e he => ?_⟩
    · rcases List.mem_cons.mp hb with rfl | hb
      · exact ⟨first, hfirst, fun e he => List.mem_append_left _ he⟩
      · obtain ⟨d, hd, hspread⟩ := hall b hb
        exact ⟨d, hd, fun e he => List.mem_append_right _ (hspread e he)⟩
    · rcases List.mem_append.mp he with he | he
      · exact ⟨c, by simp, first, hfirst, he⟩
      · obtain ⟨b, hb, d, hd, he⟩ := hfrom e he
        exact ⟨b, by simp [hb], d, hd, he⟩

/-- The condition is a leaf, or a conjunction of at least two leaves, of the kind. -/
structure ArmOf (L : Condition → Prop) (c : Condition) : Prop where
  isArm : c.isArm = true
  several : ∀ cs, c = .and cs → 2 ≤ cs.length
  leaves : ∀ l ∈ c.leaves, L l

/-- The condition is in disjunctive normal form, with leaves of the kind: it is an arm, or a disjunction of at least two
arms. -/
structure NormalFormOf (L : Condition → Prop) (c : Condition) : Prop where
  arms : ∀ d ∈ c.alternatives, ArmOf L d
  several : ∀ cs, c = .or cs → 2 ≤ cs.length

section Kinds

variable {L : Condition → Prop}

theorem armOf_leaf (hleaf : l.isCombinator = false) (h : L l) : ArmOf L l := by
  refine ⟨?_, fun cs hc => absurd hc (ne_and_of_not_isCombinator hleaf cs), fun m hm => ?_⟩
  · cases l <;> first | rfl | simp [isCombinator] at hleaf
  · rw [leaves_of_not_isCombinator hleaf, List.mem_singleton] at hm
    rwa [hm]

theorem ArmOf.mem_alternatives (h : ArmOf L c) : c ∈ c.alternatives :=
  alternatives_of_isArm h.isArm ▸ List.mem_singleton_self c

theorem ArmOf.normalFormOf (h : ArmOf L c) : NormalFormOf L c := by
  refine ⟨fun d hd => ?_, fun cs hc => ?_⟩
  · rw [alternatives_of_isArm h.isArm, List.mem_singleton] at hd
    exact hd ▸ h
  · have harm := h.isArm
    simp [hc, Condition.isArm, isCombinator] at harm

theorem NormalFormOf.isNormalForm (h : NormalFormOf L c) : c.isNormalForm = true := by
  cases c with
  | or cs => exact List.all_eq_true.mpr fun d hd => (h.arms d hd).isArm
  | _ => exact (h.arms _ (List.mem_singleton_self _)).isArm

theorem NormalFormOf.leaves (h : NormalFormOf L c) : ∀ l ∈ c.leaves, L l := by
  cases c with
  | or cs =>
    intro l hl
    obtain ⟨d, hd, hl⟩ := mem_leavesOf.mp hl
    exact (h.arms d hd).leaves l hl
  | _ => exact (h.arms _ (List.mem_singleton_self _)).leaves

theorem conjunctsOf_leaves (hleaf : ∀ l ∈ cs, l.isCombinator = false) : conjunctsOf cs = cs := by
  induction cs with
  | nil => rfl
  | cons c cs ih =>
    rw [conjunctsOf, conjuncts_of_not_isCombinator (hleaf c (by simp)), ih fun l hl => hleaf l (by simp [hl])]
    rfl

theorem isCombinator_of_coreCondition {s : Store} (h : Conjunction.CoreCondition s l) :
    l.isCombinator = false := by
  cases h <;> rfl

/-! ### Preparing keeps the kind of leaves -/

variable (hany : L .any) (hnothing : L .nothing)
  (hcore : ∀ l, Conjunction.CoreCondition g.store l → (∀ a, l.Decided g a) → L l)

include hany

theorem armOf_conjunction (hleaf : ∀ l ∈ cs, l.isCombinator = false) (h : ∀ l ∈ cs, L l) : ArmOf L (conjunction cs) := by
  match cs, hleaf, h with
  | [], _, _ => exact armOf_leaf rfl hany
  | [l], hleaf, h => exact armOf_leaf (hleaf l (by simp)) (h l (by simp))
  | l₁ :: l₂ :: rest, hleaf, h =>
    refine ⟨List.all_eq_true.mpr fun l hl => by simp [hleaf l hl], fun cs hcs => ?_, fun m hm => ?_⟩
    · cases hcs
      simp
    · have hmem : m ∈ (Condition.and (l₁ :: l₂ :: rest)).leaves := hm
      rw [leaves_and hleaf] at hmem
      exact h m hmem

include hnothing hcore

/-- Simplifying a conjunction of leaves leaves an arm. -/
theorem armOf_simplify_and (hleaf : ∀ l ∈ cs, l.isCombinator = false) (h : ∀ l ∈ cs, L l)
    (hd : simplify g.store (.and cs) = .ok d) : ArmOf L d := by
  rcases simplify_and_cases hd with ⟨-, rfl⟩ | ⟨k, hk, ⟨-, rfl⟩ | ⟨-, hd⟩⟩
  · exact armOf_leaf rfl hnothing
  · exact armOf_leaf rfl hnothing
  · rw [conjunctsOf_leaves hleaf] at hk
    have hw := wellFormed_of_absorbAll (fun u hu => ne_and_of_not_isCombinator (hleaf u hu)) hk
      Conjunction.wellFormed_empty
    obtain ⟨first, hfirst, hd⟩ := bind_eq_ok_iff.mp hd
    cases hd
    have hothers : ∀ l ∈ k.others, l ∈ cs := fun l hl =>
      (mem_of_mem_others hleaf hk hl).resolve_left (by simp [Conjunction.empty])
    show ArmOf L (conjunction (k.coreConditions g.store first ++ k.others))
    refine armOf_conjunction hany (fun l hl => ?_) (fun l hl => ?_)
    · rcases List.mem_append.mp hl with hl | hl
      · exact isCombinator_of_coreCondition (Conjunction.coreCondition_of_mem hfirst hl)
      · exact hleaf l (hothers l hl)
    · rcases List.mem_append.mp hl with hl | hl
      · exact hcore l (Conjunction.coreCondition_of_mem hfirst hl) fun _ =>
          Conjunction.decided_coreConditions hw hfirst l hl
      · exact h l (hothers l hl)

theorem armOf_simplify_conjunction (hleaf : ∀ l ∈ cs, l.isCombinator = false) (h : ∀ l ∈ cs, L l)
    (hd : simplify g.store (conjunction cs) = .ok d) : ArmOf L d := by
  match cs, hleaf, h, hd with
  | [], _, _, hd =>
    cases hd
    exact armOf_leaf rfl hany
  | [l], hleaf, h, hd =>
    have hl := hleaf l (by simp)
    rw [conjunction, simplify_of_not_isCombinator hl] at hd
    exact Except.ok.inj hd ▸ armOf_leaf hl (h l (by simp))
  | _ :: _ :: _, hleaf, h, hd => exact armOf_simplify_and hany hnothing hcore hleaf h hd

omit hany hcore in
theorem normalFormOf_disjunction (h : ∀ c ∈ cs, ArmOf L c) : NormalFormOf L (disjunction cs) := by
  match cs, h with
  | [], _ => exact (armOf_leaf rfl hnothing).normalFormOf
  | [c], h => exact (h c (by simp)).normalFormOf
  | _ :: _ :: _, h =>
    refine ⟨h, fun cs hcs => ?_⟩
    cases hcs
    simp

omit hany hnothing hcore in
private theorem armOf_of_simplifyArms {ds : List Condition}
    (h : ∀ c ∈ cs, ∀ d, simplify g.store c = .ok d → ArmOf L d) (hds : simplifyArms g.store cs = .ok ds) :
    ∀ d ∈ ds, ArmOf L d := by
  intro e he
  obtain ⟨c, hc, d, hd, hspread⟩ := (simplifyArms_cases hds).2 e he
  have harm := h c hc d hd
  obtain ⟨rfl, -⟩ := (mem_spread_of_isArm harm.isArm).mp hspread
  exact harm

/-- Simplifying the normal form of a condition leaves a normal form, with leaves of the kind of those of the condition,
provided that the leaves that preparation makes up are of that kind. -/
theorem normalFormOf_simplify_toNormalForm (h : ∀ l ∈ c.leaves, L l)
    (hd : simplify g.store c.toNormalForm = .ok d) : NormalFormOf L d := by
  have harm : ∀ arm ∈ c.arms, ∀ d, simplify g.store (conjunction arm) = .ok d → ArmOf L d := by
    intro arm harm d hd
    have hcombinator : ∀ l ∈ arm, l.isCombinator = false := fun l hl => isCombinator_of_mem_arm harm hl
    refine armOf_simplify_conjunction hany hnothing hcore hcombinator (fun l hl => ?_) hd
    rcases mem_leaves_of_mem_arm harm hl with hl | rfl | rfl
    · exact h l hl
    · exact hany
    · exact hnothing
  have harms : ∀ u ∈ c.arms.map conjunction, ∀ d, simplify g.store u = .ok d → ArmOf L d := by
    intro u hu d hd
    obtain ⟨arm, hmem, rfl⟩ := List.mem_map.mp hu
    exact harm arm hmem d hd
  unfold toNormalForm at hd
  generalize c.arms.map conjunction = us at hd harms
  match us, hd, harms with
  | [], hd, _ =>
    cases hd
    exact (armOf_leaf rfl hnothing).normalFormOf
  | [u], hd, harms => exact (harms u (by simp) d hd).normalFormOf
  | u₁ :: u₂ :: rest, hd, harms =>
    obtain ⟨ds, hds, hd⟩ := bind_eq_ok_iff.mp hd
    cases hd
    exact normalFormOf_disjunction hnothing (armOf_of_simplifyArms harms hds)

end Kinds

/-- Simplifying the normal form of a condition leaves a normal form, whatever the leaves are. -/
theorem normalFormOf_of_simplify (hd : simplify g.store c.toNormalForm = .ok d) : NormalFormOf (fun _ => True) d :=
  normalFormOf_simplify_toNormalForm trivial trivial (fun _ _ _ => trivial) (fun _ _ => trivial) hd

/-! ### Alternatives of prepared conditions -/

private theorem alternatives_disjunction (h : ∀ d ∈ cs, d.isArm = true) (hne : cs ≠ []) :
    (disjunction cs).alternatives = cs := by
  match cs, h, hne with
  | [d], h, _ => exact alternatives_of_isArm (h d (by simp))
  | _ :: _ :: _, _, _ => rfl

private theorem isArm_of_simplify_arm {arm : List Condition} {e : Condition} (harm : arm ∈ c.arms)
    (he : simplify g.store (conjunction arm) = .ok e) : e.isArm = true :=
  (armOf_simplify_conjunction (L := fun _ => True) trivial trivial (fun _ _ _ => trivial)
    (fun _ hl => isCombinator_of_mem_arm harm hl) (fun _ _ => trivial) he).isArm

/-- The alternatives of a prepared condition are its arms, each simplified, without those that match nothing. -/
theorem alternatives_of_simplify (hd : simplify g.store c.toNormalForm = .ok d) :
    (∀ arm ∈ c.arms, ∃ e, simplify g.store (conjunction arm) = .ok e ∧ (e = .nothing ∨ e ∈ d.alternatives)) ∧
      ∀ e ∈ d.alternatives, e = .nothing ∨ ∃ arm ∈ c.arms, simplify g.store (conjunction arm) = .ok e := by
  have harm : ∀ arm ∈ c.arms, ∀ e, simplify g.store (conjunction arm) = .ok e → e.isArm = true :=
    fun arm harm e he => isArm_of_simplify_arm harm he
  unfold toNormalForm at hd
  rcases hcases : c.arms with _ | ⟨arm, _ | ⟨arm', arms⟩⟩
  · rw [hcases] at hd
    cases hd
    exact ⟨by simp, fun e he => .inl (List.mem_singleton.mp he)⟩
  · rw [hcases] at hd harm
    have hd : simplify g.store (conjunction arm) = .ok d := hd
    rw [alternatives_of_isArm (harm arm (by simp) d hd)]
    simp [hd]
  · rw [← hcases]
    obtain ⟨ds, hds, rfl⟩ : ∃ ds, simplifyArms g.store (c.arms.map conjunction) = .ok ds ∧ disjunction ds = d := by
      rw [hcases] at hd ⊢
      obtain ⟨ds, hds, hd⟩ := bind_eq_ok_iff.mp hd
      exact ⟨ds, hds, Except.ok.inj hd⟩
    obtain ⟨hall, hfrom⟩ := simplifyArms_cases hds
    have hmem : ∀ e ∈ ds, ∃ arm ∈ c.arms, simplify g.store (conjunction arm) = .ok e := by
      intro e he
      obtain ⟨u, hu, d, hd, he⟩ := hfrom e he
      obtain ⟨a, ha, rfl⟩ := List.mem_map.mp hu
      obtain ⟨rfl, -⟩ := (mem_spread_of_isArm (harm a ha d hd)).mp he
      exact ⟨a, ha, hd⟩
    have heach : ∀ a ∈ c.arms, ∃ e, simplify g.store (conjunction a) = .ok e ∧ (e = .nothing ∨ e ∈ ds) := by
      intro a ha
      obtain ⟨e, he, hspread⟩ := hall _ (List.mem_map.mpr ⟨a, ha, rfl⟩)
      refine ⟨e, he, (Classical.em (e = .nothing)).imp_right fun hne => ?_⟩
      exact hspread e ((mem_spread_of_isArm (harm a ha e he)).mpr ⟨rfl, hne⟩)
    rcases ds with _ | ⟨first, rest⟩
    · refine ⟨fun a ha => ?_, fun e he => .inl (List.mem_singleton.mp he)⟩
      obtain ⟨e, he, hne⟩ := heach a ha
      exact ⟨e, he, .inl (hne.resolve_right (by simp))⟩
    · have hisArm : ∀ e ∈ first :: rest, e.isArm = true := fun e he => by
        obtain ⟨a, ha, hsimp⟩ := hmem e he
        exact harm a ha e hsimp
      rw [alternatives_disjunction hisArm (by simp)]
      exact ⟨heach, fun e he => .inr (hmem e he)⟩

/-- The arms that match nothing are not among those of a prepared disjunction. -/
theorem nothing_notMem_of_simplify {ds : List Condition} (hd : simplify g.store c.toNormalForm = .ok (.or ds)) :
    .nothing ∉ ds := by
  have harm : ∀ u ∈ c.arms.map conjunction, ∀ e, simplify g.store u = .ok e → e.isArm = true := by
    intro u hu e he
    obtain ⟨arm, harm, rfl⟩ := List.mem_map.mp hu
    exact isArm_of_simplify_arm harm he
  unfold toNormalForm at hd
  match c.arms.map conjunction, harm, hd with
  | [], _, hd => cases hd
  | [u], harm, hd =>
    have hisArm := harm u (by simp) _ hd
    simp [isArm, isCombinator] at hisArm
  | u :: v :: us, harm, hd =>
    obtain ⟨es, hes, hd⟩ := bind_eq_ok_iff.mp hd
    have hes : ∀ e ∈ es, e.isArm = true ∧ e ≠ .nothing := by
      intro e he
      obtain ⟨w, hw, f, hf, hspread⟩ := (simplifyArms_cases hes).2 e he
      obtain ⟨rfl, hne⟩ := (mem_spread_of_isArm (harm w hw f hf)).mp hspread
      exact ⟨harm w hw _ hf, hne⟩
    have hor : disjunction es = .or ds := Except.ok.inj hd
    have hne : es ≠ [] := by
      rintro rfl
      simp [disjunction] at hor
    have hds : ds = es := by
      rw [← alternatives_disjunction (fun e he => (hes e he).1) hne, hor, alternatives]
    exact fun hmem => (hes _ (hds ▸ hmem)).2 rfl

/-- The condition is in disjunctive normal form, and its leaves can be planned. -/
structure Ready (g : Graph) (c : Condition) : Prop where
  isNormalForm : c.isNormalForm = true
  plannable : ∀ l ∈ c.leaves, l.Plannable g

theorem ready_simplify_toNormalForm (h : ∀ l ∈ c.leaves, l.Plannable g)
    (hd : simplify g.store c.toNormalForm = .ok d) : Ready g d :=
  have hcore : ∀ l, Conjunction.CoreCondition g.store l → (∀ a, l.Decided g a) → l.Plannable g :=
    fun _ hl hdecided => plannable_of_coreCondition hdecided hl
  have hnormal := normalFormOf_simplify_toNormalForm plannable_any plannable_nothing hcore h hd
  ⟨hnormal.isNormalForm, hnormal.leaves⟩

/-! ### Meaning -/

/-- The equality literals of the normal form are those of the condition. -/
theorem equalityLiterals_toNormalForm {v : Value} (hv : v ∈ c.toNormalForm.equalityLiterals) :
    v ∈ c.equalityLiterals := by
  obtain ⟨l, hl, hlv⟩ := mem_equalityLiterals.mp hv
  rcases mem_leaves_toNormalForm hl with hl | rfl | rfl
  · exact mem_equalityLiterals.mpr ⟨l, hl, hlv⟩
  · simp [equalityLiteral?] at hlv
  · simp [equalityLiteral?] at hlv

/-- On an atom that decides the leaves, preparation keeps whether the condition holds, unless two of its equality
literals are mistaken for each other. -/
theorem holds_simplify_toNormalForm {a : Atom} (hleaves : ∀ l ∈ c.leaves, l.Decided g a)
    (hmistaken : ∀ v ∈ c.equalityLiterals, ∀ w ∈ c.equalityLiterals, ¬ Value.Mistaken v w)
    (hd : simplify g.store c.toNormalForm = .ok d) : d.Holds g a ↔ c.Holds g a := by
  have hpres : Preserved g a c.toNormalForm := preserved_of_not_mistaken fun v hv w hw =>
    hmistaken v (equalityLiterals_toNormalForm hv) w (equalityLiterals_toNormalForm hw)
  obtain ⟨b, hb⟩ := decided_toNormalForm hleaves
  rw [← holds_toNormalForm hleaves, Holds, Holds, hpres d hd b hb, hb]

end Condition

/-- A prepared condition is in disjunctive normal form. -/
theorem Planner.isNormalForm_of_prepare {p : Planner} {c d : Condition} (hd : p.prepare c = .ok d) :
    d.isNormalForm = true :=
  (Condition.normalFormOf_of_simplify hd).isNormalForm

end HyperQuery
