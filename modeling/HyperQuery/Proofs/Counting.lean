import HyperQuery.Proofs.Plan.Nested

/-!
# Exact estimates count the stored results

The upper bound of an estimate caps the results of a condition, unless it does not even cap the atoms there are
(`capped_of_estimate`), and a lower bound above zero comes from the matches of a single constraint
(`exists_alternative_of_lower`). A plan that answers a condition reads all matches of that constraint, so where the
bounds meet they give the number of stored atoms among what is read (`Plan.Answers.length_stored_of_isExact`). Results
that are no stored atoms, which mappings and walks can lead to, are not counted.
-/

namespace HyperQuery

namespace Estimate

variable {e : Estimate} {es : List Estimate} {total : Nat}

private theorem upper_foldl_meet_cases :
    (es.foldl meet e).upper = e.upper ∨ ∃ d ∈ es, (es.foldl meet e).upper = d.upper := by
  refine List.foldlRecOn (motive := fun x => x.upper = e.upper ∨ ∃ d ∈ es, x.upper = d.upper) es meet (.inl rfl)
    fun x hx d hd => ?_
  have hmeet : (x.meet d).upper = min x.upper d.upper := rfl
  rcases Nat.le_total x.upper d.upper with hle | hle
  · rw [hmeet, Nat.min_eq_left hle]
    exact hx
  · exact .inr ⟨d, hd, by rw [hmeet, Nat.min_eq_right hle]⟩

/-- The upper bound of a conjunction is that of one of the conjuncts. -/
theorem exists_upper_conjunction (h : es ≠ []) : ∃ d ∈ es, (conjunction total es).upper = d.upper := by
  cases es with
  | nil => exact absurd rfl h
  | cons d es =>
    have hcases : (conjunction total (d :: es)).upper = d.upper ∨
        ∃ x ∈ d :: es, (conjunction total (d :: es)).upper = x.upper := upper_foldl_meet_cases
    rcases hcases with hd | hx
    · exact ⟨d, by simp, hd⟩
    · exact hx

private theorem lower_foldl_join_cases :
    (es.foldl join e).lower = e.lower ∨ ∃ d ∈ es, (es.foldl join e).lower = d.lower := by
  refine List.foldlRecOn (motive := fun x => x.lower = e.lower ∨ ∃ d ∈ es, x.lower = d.lower) es join (.inl rfl)
    fun x hx d hd => ?_
  have hjoin : (x.join d).lower = max x.lower d.lower := rfl
  rcases Nat.le_total x.lower d.lower with hle | hle
  · exact .inr ⟨d, hd, by rw [hjoin, Nat.max_eq_right hle]⟩
  · rw [hjoin, Nat.max_eq_left hle]
    exact hx

/-- The lower bound of a disjunction is that of one of the arms, unless it is zero. -/
theorem exists_lower_disjunction (h : 0 < (disjunction total es).lower) :
    ∃ d ∈ es, (disjunction total es).lower = d.lower := by
  cases es with
  | nil => exact absurd h (Nat.lt_irrefl _)
  | cons d es =>
    have hcases : (disjunction total (d :: es)).lower = 0 ∨
        ∃ x ∈ d :: es, (disjunction total (d :: es)).lower = x.lower := lower_foldl_join_cases
    rcases hcases with hzero | hx
    · omega
    · exact hx

/-- The upper bound of a disjunction is at least the sum of those of its arms, or else the number of all atoms. -/
theorem min_sum_le_upper_disjunction : min (es.map upper).sum total ≤ (disjunction total es).upper := by
  cases es with
  | nil => exact Nat.min_le_left _ _
  | cons d es =>
    have hsum : ((d :: es).foldl join ⟨true, true, 0, 0, 0, .zero, true⟩).upper = ((d :: es).map upper).sum := by
      rw [upper_foldl_join]
      exact Nat.zero_add _
    rw [← hsum]
    exact Nat.le_max_left _ _

end Estimate

namespace Condition

variable {g : Graph} {c : Condition} {cs : List Condition} {e : Estimate} {es : List Estimate} {n : Nat}

/-! ### Upper bounds -/

/-- The number caps the results of the condition, unless it does not even cap the atoms there are. -/
def CappedBy (g : Graph) (c : Condition) (n : Nat) : Prop :=
  g.store.atomCount ≤ n ∨ ∃ ids : List AtomId, ids.length ≤ n ∧ ∀ id, c.Results g id → id ∈ ids

theorem CappedBy.mono {m : Nat} (h : c.CappedBy g m) (hmn : m ≤ n) : c.CappedBy g n := by
  rcases h with htotal | ⟨ids, hlength, hids⟩
  · exact .inl (Nat.le_trans htotal hmn)
  · exact .inr ⟨ids, Nat.le_trans hlength hmn, hids⟩

private theorem exists_ids_of_arms (hes : List.Forall₂ (fun c e => c.estimate g = .ok e) cs es)
    (hcapped : ∀ c ∈ cs, ∀ e, c.estimate g = .ok e → c.CappedBy g e.upper)
    (hfew : (es.map Estimate.upper).sum < g.store.atomCount) :
    ∃ ids : List AtomId, ids.length ≤ (es.map Estimate.upper).sum ∧ ∀ c ∈ cs, ∀ id, c.Results g id → id ∈ ids := by
  induction hes with
  | nil => exact ⟨[], by simp, by simp⟩
  | @cons c e cs es hc _ ih =>
    rw [List.map_cons, List.sum_cons] at hfew ⊢
    obtain ⟨ids, hlength, hids⟩ := ih (fun d hd => hcapped d (by simp [hd])) (by omega)
    rcases hcapped c (by simp) e hc with htotal | ⟨first, hfirst, hresults⟩
    · omega
    · refine ⟨first ++ ids, by rw [List.length_append]; omega, fun d hd id hid => ?_⟩
      rcases List.mem_cons.mp hd with rfl | hd
      · exact List.mem_append_left _ (hresults id hid)
      · exact List.mem_append_right _ (hids d hd id hid)

/-- Where results are stored atoms, the results of a constraint are its matches. -/
private theorem matches_of_results {id : AtomId} (hstore : g.store.Consistent) (hleaf : c.isCompound = false)
    (hindex : Registered g.store [c]) (hany : c ≠ .any) (hwalk : c.walkStart? = none) (h : c.Results g id) :
    c.Matches g id := by
  cases h with
  | any => exact absurd rfl hany
  | holds _ ha h => exact ⟨_, ha, h⟩
  | walked _ _ => simp [walkStart?] at hwalk
  | subsumption hw _ _ => cases c <;> simp [subsumptionWalk?, walkStart?] at hw hwalk
  | indexed h => exact (Planner.mem_matching_iff_matches hstore (hindex _ _ _ _ _ (List.mem_singleton_self _))).mp h
  | and _ | or _ _ => simp [isCompound] at hleaf
  | map _ _ => simp [isCompound] at hleaf

private theorem capped_leaf (hreach : g.store.Reachable) (hleaf : c.isCompound = false)
    (hindex : Registered g.store [c]) (he : c.estimate g = .ok e) : c.CappedBy g e.upper := by
  have hstore := hreach.consistent.1
  by_cases hany : c = .any
  · subst hany
    cases he
    exact .inl (Nat.le_refl _)
  · rcases hwalk : c.walkStart? with _ | id
    · have hbounds : e.Bounds (c.matchCount g) := leaf_bounds hstore hreach.setsAscending hleaf
        (fun ty path index literal op hc => hindex ty path index literal op (by simp [hc])) he
      refine .inr ⟨c.matchingIds g, length_matchingIds ▸ hbounds.2, fun id hid => (mem_matchingIds hstore).mpr ?_⟩
      exact matches_of_results hstore hleaf hindex hany hwalk hid
    · exact .inl (Nat.le_of_eq (shape_of_walk hwalk he).2.2.symm)

/-- The upper bound caps the results, if the indexes that the condition names are the registered ones. -/
theorem capped_of_estimate (hreach : g.store.Reachable) (hindex : Registered g.store c.constraints)
    (he : c.estimate g = .ok e) : c.CappedBy g e.upper := by
  induction c using treeInduction generalizing e with
  | and cs ih =>
    obtain ⟨es, hes, he⟩ := bind_eq_ok_iff.mp he
    cases he
    by_cases hnil : es = []
    · rw [hnil]
      exact .inl (Nat.le_refl _)
    · have hleast : ∃ d ∈ es, (Estimate.conjunction g.store.atomCount es).upper = d.upper :=
        Estimate.exists_upper_conjunction hnil
      obtain ⟨d, hd, hupper⟩ := hleast
      obtain ⟨c, hc, hd⟩ := exists_mem_of_estimates hes hd
      rw [hupper]
      rcases ih c hc (hindex.mono fun l hl => mem_constraintsOf.mpr ⟨c, hc, hl⟩) hd with htotal | ⟨ids, hlength, hids⟩
      · exact .inl htotal
      · exact .inr ⟨ids, hlength, fun id hid => hids id (results_and.mp hid c hc)⟩
  | or cs ih =>
    obtain ⟨es, hes, he⟩ := bind_eq_ok_iff.mp he
    cases he
    refine CappedBy.mono ?_ Estimate.min_sum_le_upper_disjunction
    rcases Nat.lt_or_ge (es.map Estimate.upper).sum g.store.atomCount with hfew | hmany
    · rw [Nat.min_eq_left (Nat.le_of_lt hfew)]
      obtain ⟨ids, hlength, hids⟩ := exists_ids_of_arms (estimates_eq_ok_iff.mp hes)
        (fun c hc e he => ih c hc (hindex.mono fun l hl => mem_constraintsOf.mpr ⟨c, hc, hl⟩) he) hfew
      refine .inr ⟨ids, hlength, fun id hid => ?_⟩
      obtain ⟨c, hc, hid⟩ := results_or.mp hid
      exact hids c hc id hid
    · rw [Nat.min_eq_right hmany]
      exact .inl (Nat.le_refl _)
  | not operand _ =>
    obtain ⟨inner, -, -, rfl⟩ := estimate_not he
    exact .inl (Nat.le_refl _)
  | map operand mapping ih =>
    obtain ⟨inner, hinner, he⟩ := bind_eq_ok_iff.mp he
    cases he
    rcases ih hindex hinner with htotal | ⟨ids, hlength, hids⟩
    · exact .inl htotal
    · refine .inr ⟨ids.filterMap (mapping.image g), Nat.le_trans (List.length_filterMap_le _ _) hlength, fun id hid => ?_⟩
      obtain ⟨x, hx, himage⟩ := results_map.mp hid
      exact List.mem_filterMap.mpr ⟨x, hids x hx, Mapping.image_eq_some_iff.mpr himage⟩
  | leaf c hleaf =>
    rw [constraints_of_not_isCompound hleaf] at hindex
    exact capped_leaf hreach hleaf hindex he

/-! ### Lower bounds -/

private theorem listable_of_lower {L : Condition → Prop} (hreach : g.store.Reachable) (harm : ArmOf L c)
    (hindex : Registered g.store c.constraints) (he : c.estimate g = .ok e) (hlower : 0 < e.lower) :
    c.Listable g ∧ e.lower ≤ c.matchCount g := by
  rcases isArm_cases harm.isArm with hleaf | ⟨cs, rfl, -⟩
  · rcases leaf_cases hleaf he with ⟨hconstraint, hdirect, -⟩ | ⟨hindirect, -⟩
    · rw [constraints_of_not_isCompound hconstraint] at hindex
      have hbounds : e.Bounds (c.matchCount g) :=
        leaf_bounds hreach.consistent.1 hreach.setsAscending hconstraint
          (fun ty path index literal op hc => hindex ty path index literal op (by simp [hc])) he
      exact ⟨⟨hconstraint, hindex, e, he, hdirect⟩, hbounds.1⟩
    · rw [hindirect.lower] at hlower
      exact absurd hlower (Nat.lt_irrefl _)
  · -- a conjunction of at least one condition promises nothing
    obtain ⟨es, hes, he⟩ := bind_eq_ok_iff.mp he
    cases he
    cases es with
    | nil =>
      rw [estimates_eq_ok_iff, List.forall₂_nil_right_iff] at hes
      have hseveral := harm.several cs rfl
      simp [hes] at hseveral
    | cons d rest =>
      have hzero : (Estimate.conjunction g.store.atomCount (d :: rest)).lower = 0 := Estimate.lower_foldl_meet rfl
      omega

/-- A lower bound above zero comes from an alternative whose matches can be listed. -/
theorem exists_alternative_of_lower {L : Condition → Prop} (hreach : g.store.Reachable) (hnormal : NormalFormOf L c)
    (hindex : Registered g.store c.constraints) (he : c.estimate g = .ok e) (hlower : 0 < e.lower) :
    ∃ d ∈ c.alternatives, d.Listable g ∧ e.lower ≤ d.matchCount g := by
  cases c with
  | or cs =>
    obtain ⟨es, hes, he⟩ := bind_eq_ok_iff.mp he
    cases he
    obtain ⟨d, hd, heq⟩ := Estimate.exists_lower_disjunction hlower
    obtain ⟨c, hc, hce⟩ := exists_mem_of_estimates hes hd
    rw [heq] at hlower ⊢
    have hindex : Registered g.store c.constraints := hindex.mono fun l hl => mem_constraintsOf.mpr ⟨c, hc, hl⟩
    exact ⟨c, hc, listable_of_lower hreach (hnormal.arms c hc) hindex hce hlower⟩
  | _ =>
    have harm := hnormal.arms _ (List.mem_singleton_self _)
    exact ⟨_, List.mem_singleton_self _, listable_of_lower hreach harm hindex he hlower⟩

end Condition

/-! ### Exact estimates -/

section Exact

open Condition (NormalFormOf Registered)

variable {g : Graph} {c : Condition} {e : Estimate} {plan : Plan} {items : List AtomId}

/-- The handles among a list that are those of stored atoms. -/
def Store.stored (s : Store) (ids : List AtomId) : List AtomId := ids.filter fun id => (s.atom? id).isSome

theorem Store.mem_stored {s : Store} {ids : List AtomId} {id : AtomId} :
    id ∈ s.stored ids ↔ id ∈ ids ∧ ∃ a, s.atom? id = some a := by
  rw [stored, List.mem_filter, Option.isSome_iff_exists]

theorem Store.length_stored_le_atomCount {s : Store} (h : s.Consistent) {ids : List AtomId} (hnodup : ids.Nodup) :
    (s.stored ids).length ≤ s.atomCount := by
  have hatoms : (s.stored ids).length ≤ (s.atoms.toList.map Atom.id).length := by
    refine (hnodup.filter _).length_le_of_subset fun id hid => ?_
    exact (Store.mem_atomIds h).mpr (Store.mem_stored.mp hid).2
  simpa [atomCount] using hatoms

/-- What caps the results of a condition caps the stored atoms among them. -/
theorem Condition.CappedBy.length_stored_le {n : Nat} (h : c.CappedBy g n) (hstore : g.store.Consistent)
    (hnodup : items.Nodup) (hresults : ∀ id ∈ items, c.Results g id) : (g.store.stored items).length ≤ n := by
  rcases h with htotal | ⟨ids, hlength, hids⟩
  · exact Nat.le_trans (Store.length_stored_le_atomCount hstore hnodup) htotal
  · refine Nat.le_trans ((hnodup.filter _).length_le_of_subset fun id hid => ?_) hlength
    exact hids id (hresults id (Store.mem_stored.mp hid).1)

theorem Condition.matchCount_le_length_stored (hstore : g.store.Consistent)
    (hmatches : ∀ id, c.Matches g id → id ∈ items) : c.matchCount g ≤ (g.store.stored items).length := by
  refine matchCount_le_length hstore fun id hid => ?_
  have hitem := hmatches id hid
  obtain ⟨a, ha, -⟩ := hid
  exact Store.mem_stored.mpr ⟨hitem, a, ha⟩

/-- Where the bounds meet, they give the number of stored atoms among the items that a condition is answered with. -/
theorem Plan.Answers.length_stored_of_isExact {L : Condition → Prop} (hreach : g.store.Reachable)
    (hanswers : plan.Answers g c items) (hnormal : NormalFormOf L c) (hindex : Registered g.store c.constraints)
    (he : c.estimate g = .ok e) (hexact : e.isExact = true) : (g.store.stored items).length = e.upper := by
  have hstore := hreach.consistent.1
  have heq : e.lower = e.upper := beq_iff_eq.mp hexact
  have hcapped := Condition.capped_of_estimate hreach hindex he
  rcases Nat.eq_zero_or_pos e.upper with hzero | hpos
  · -- no plan is known to read an atom once, but none of the items can be stored
    rw [hzero] at hcapped ⊢
    rw [List.length_eq_zero_iff, List.eq_nil_iff_forall_not_mem]
    intro id hid
    obtain ⟨hitem, hstored⟩ := Store.mem_stored.mp hid
    have halone : (g.store.stored [id]).length ≤ 0 :=
      hcapped.length_stored_le hstore (List.nodup_singleton id) (by simpa using hanswers.results id hitem)
    have hmem : id ∈ g.store.stored [id] := Store.mem_stored.mpr ⟨List.mem_singleton_self id, hstored⟩
    rw [List.length_eq_zero_iff.mp (Nat.le_zero.mp halone)] at hmem
    simp at hmem
  · obtain ⟨d, hd, hlistable, hcount⟩ :=
      Condition.exists_alternative_of_lower hreach hnormal hindex he (heq ▸ hpos)
    obtain ⟨hmatches, hnodup⟩ := hanswers.listed d hd hlistable
    have hlower : e.lower ≤ (g.store.stored items).length :=
      Nat.le_trans hcount (Condition.matchCount_le_length_stored hstore hmatches)
    have hupper : (g.store.stored items).length ≤ e.upper := hcapped.length_stored_le hstore hnodup hanswers.results
    exact Nat.le_antisymm hupper (heq ▸ hlower)

end Exact

end HyperQuery
