import Mathlib.Algebra.GroupWithZero.Nat
import HyperQuery.Proofs.Condition.Tree
import HyperQuery.Proofs.Plan.Leaf
import HyperQuery.Proofs.Store.Counts

/-!
# Estimates bound the number of matches

The bounds of an estimate hold the number of stored atoms of which the condition is true (`bounds_of_estimate`). Each
bound has a reason of its own and needs less than both together:

* the size expected lies between the bounds for every condition (`expected_between`);
* the upper bound holds whether or not the condition is decided everywhere (`matchCount_le_upper`);
* for the lower bound a disjunction has to meet all arms, so its constraints have to be decided (`lower_le_matchCount`).

A condition that is not made of others is bounded by the size of a list of handles that the store keeps
(`leaf_bounds`).
-/

namespace HyperQuery

open Store

namespace Condition

variable {g : Graph} {c : Condition} {cs : List Condition} {e : Estimate} {es : List Estimate}

/-! ### Counting matches -/

/-- Whether the condition is true of the atom. -/
def isTrueOf (g : Graph) (c : Condition) (a : Atom) : Bool :=
  match (c.eval g a).answer with
  | .ok b => b
  | .error _ => false

/-- The number of stored atoms of which the condition is true. -/
def matchCount (g : Graph) (c : Condition) : Nat := g.store.atoms.toList.countP (c.isTrueOf g)

theorem isTrueOf_iff {a : Atom} : c.isTrueOf g a = true ↔ c.Holds g a := by
  unfold isTrueOf Holds
  rcases (c.eval g a).answer with error | b <;> simp

/-- The handles of the stored atoms of which the condition is true. -/
def matchingIds (g : Graph) (c : Condition) : List AtomId :=
  (g.store.atoms.toList.filter (c.isTrueOf g)).map Atom.id

theorem length_matchingIds : (c.matchingIds g).length = c.matchCount g := by
  rw [matchingIds, List.length_map, matchCount, List.countP_eq_length_filter]

theorem mem_matchingIds (h : g.store.Consistent) {id : AtomId} : id ∈ c.matchingIds g ↔ c.Matches g id := by
  simp only [matchingIds, List.mem_map, List.mem_filter, isTrueOf_iff, Matches]
  constructor
  · rintro ⟨a, ⟨ha, hholds⟩, rfl⟩
    exact ⟨a, (mem_atoms h).mp ha, hholds⟩
  · rintro ⟨a, ha, hholds⟩
    have hid := h.id_eq ha
    exact ⟨a, ⟨(mem_atoms h).mpr (hid.symm ▸ ha), hholds⟩, hid⟩

theorem nodup_matchingIds (h : g.store.Consistent) : (c.matchingIds g).Nodup :=
  (nodup_atomIds h).sublist ((List.filter_sublist).map Atom.id)

section Counting

variable (h : g.store.Consistent) {ids : List AtomId}

include h

/-- A list of all matches is at least as long as there are matches. -/
theorem matchCount_le_length (hids : ∀ id, c.Matches g id → id ∈ ids) : c.matchCount g ≤ ids.length := by
  rw [← length_matchingIds]
  exact (nodup_matchingIds h).length_le_of_subset fun id hid => hids id ((mem_matchingIds h).mp hid)

/-- A list of different matches is at most as long as there are matches. -/
theorem length_le_matchCount (hnodup : ids.Nodup) (hids : ∀ id ∈ ids, c.Matches g id) : ids.length ≤ c.matchCount g := by
  rw [← length_matchingIds]
  exact hnodup.length_le_of_subset fun id hid => (mem_matchingIds h).mpr (hids id hid)

theorem length_eq_matchCount (hnodup : ids.Nodup) (hids : ∀ id, id ∈ ids ↔ c.Matches g id) :
    ids.length = c.matchCount g :=
  Nat.le_antisymm (length_le_matchCount h hnodup fun id => (hids id).mp)
    (matchCount_le_length h fun id => (hids id).mpr)

theorem matchCount_mono {d : Condition} (hcd : ∀ id, c.Matches g id → d.Matches g id) :
    c.matchCount g ≤ d.matchCount g := by
  rw [← length_matchingIds (c := d)]
  exact matchCount_le_length h fun id hid => (mem_matchingIds h).mpr (hcd id hid)

omit h in
theorem matchCount_le_atomCount : c.matchCount g ≤ g.store.atomCount := by
  show _ ≤ g.store.atoms.size
  rw [← Array.length_toList]
  exact List.countP_le_length

end Counting

/-- A disjunction has at most as many matches as its arms have together. -/
theorem matchCount_or_le (h : g.store.Consistent) :
    (Condition.or cs).matchCount g ≤ (cs.map (matchCount g)).sum := by
  have hids : ∀ id, (Condition.or cs).Matches g id → id ∈ cs.flatMap (matchingIds g) := by
    rintro id ⟨a, ha, hholds⟩
    obtain ⟨c, hc, hholds⟩ := exists_of_holds_or hholds
    exact List.mem_flatMap.mpr ⟨c, hc, (mem_matchingIds h).mpr ⟨a, ha, hholds⟩⟩
  have hlength : (cs.flatMap (matchingIds g)).length = (cs.map (matchCount g)).sum := by
    simp only [List.length_flatMap, length_matchingIds]
  rw [← hlength]
  exact matchCount_le_length h hids

end Condition

/-! ### Folding estimates -/

namespace Estimate

variable {e : Estimate} {es : List Estimate} {n : Nat}

theorem lower_foldl_meet (h : e.lower = 0) : (es.foldl meet e).lower = 0 := by
  induction es generalizing e with
  | nil => exact h
  | cons d es ih => exact ih rfl

theorem le_upper_foldl_meet (h : n ≤ e.upper) (hes : ∀ d ∈ es, n ≤ d.upper) : n ≤ (es.foldl meet e).upper := by
  refine List.foldlRecOn (motive := fun x => n ≤ x.upper) es meet h fun x hx d hd => ?_
  exact Nat.le_min.mpr ⟨hx, hes d hd⟩

theorem expected_foldl_meet_le (h : e.expected ≤ e.upper) (hes : ∀ d ∈ es, d.expected ≤ d.upper) :
    (es.foldl meet e).expected ≤ (es.foldl meet e).upper := by
  refine List.foldlRecOn (motive := fun x => x.expected ≤ x.upper) es meet h fun x hx d hd => ?_
  have hd : d.expected ≤ d.upper := hes d hd
  show min x.expected d.expected ≤ min x.upper d.upper
  omega

theorem lower_foldl_join_le (h : e.lower ≤ n) (hes : ∀ d ∈ es, d.lower ≤ n) : (es.foldl join e).lower ≤ n := by
  refine List.foldlRecOn (motive := fun x => x.lower ≤ n) es join h fun x hx d hd => ?_
  exact Nat.max_le.mpr ⟨hx, hes d hd⟩

theorem upper_foldl_join : (es.foldl join e).upper = e.upper + (es.map upper).sum := by
  induction es generalizing e with
  | nil => rfl
  | cons d es ih =>
    rw [List.foldl_cons, ih, List.map_cons, List.sum_cons, ← Nat.add_assoc]
    rfl

theorem lower_foldl_join_le_expected (h : e.lower ≤ e.expected) (hes : ∀ d ∈ es, d.lower ≤ d.expected) :
    (es.foldl join e).lower ≤ (es.foldl join e).expected := by
  refine List.foldlRecOn (motive := fun x => x.lower ≤ x.expected) es join h fun x hx d hd => ?_
  have hd : d.lower ≤ d.expected := hes d hd
  show max x.lower d.lower ≤ x.expected + d.expected
  omega

theorem le_upper_conjunction {total : Nat} (htotal : n ≤ total) (hes : ∀ d ∈ es, n ≤ d.upper) :
    n ≤ (conjunction total es).upper := by
  cases es with
  | nil => exact htotal
  | cons d es => exact le_upper_foldl_meet (hes d (by simp)) hes

theorem le_upper_disjunction {total : Nat} (htotal : n ≤ total) (hes : n ≤ (es.map upper).sum) :
    n ≤ (disjunction total es).upper := by
  cases es with
  | nil => exact hes
  | cons d es =>
    have hsum : n ≤ ((d :: es).foldl join ⟨true, true, 0, 0, 0, .zero, true⟩).upper := by
      rw [upper_foldl_join]
      exact Nat.le_trans hes (Nat.le_add_left _ _)
    exact Nat.le_trans (Nat.le_min.mpr ⟨hsum, htotal⟩) (Nat.le_max_left _ _)

theorem lower_disjunction_le {total : Nat} (hes : ∀ d ∈ es, d.lower ≤ n) : (disjunction total es).lower ≤ n := by
  cases es with
  | nil => exact Nat.zero_le _
  | cons d es => exact lower_foldl_join_le (Nat.zero_le _) hes

/-- The number lies between the bounds. -/
def Bounds (e : Estimate) (n : Nat) : Prop := e.lower ≤ n ∧ n ≤ e.upper

/-- The size expected lies between the bounds. -/
structure Between (e : Estimate) : Prop where
  lower_le : e.lower ≤ e.expected
  le_upper : e.expected ≤ e.upper

theorem between_exact {cost : Double} : (exact cost n).Between := ⟨Nat.le_refl n, Nat.le_refl n⟩

theorem between_orderedScan {cost : Double} : (orderedScan cost n).Between := ⟨Nat.zero_le _, Nat.div_le_self n 2⟩

theorem between_conjunction {total : Nat} (hes : ∀ d ∈ es, d.Between) : (conjunction total es).Between := by
  cases es with
  | nil => exact between_exact
  | cons d es =>
    refine ⟨?_, expected_foldl_meet_le (hes d (by simp)).le_upper fun d hd => (hes d hd).le_upper⟩
    show ((d :: es).foldl meet _).lower ≤ _
    rw [lower_foldl_meet rfl]
    exact Nat.zero_le _

theorem between_disjunction {total : Nat} (hes : ∀ d ∈ es, d.Between) : (disjunction total es).Between := by
  cases es with
  | nil => exact between_exact
  | cons d es =>
    have hlower := lower_foldl_join_le_expected (e := ⟨true, true, 0, 0, 0, .zero, true⟩) (Nat.le_refl 0)
      fun d hd => (hes d hd).lower_le
    exact ⟨Nat.le_min.mpr ⟨hlower, Nat.le_max_right _ _⟩, Nat.min_le_right _ _⟩

end Estimate

namespace Condition

variable {g : Graph} {c : Condition} {cs : List Condition} {e : Estimate} {es : List Estimate}

/-! ### Estimates of conditions -/

theorem estimate_of_not_isCompound (h : c.isCompound = false) : c.estimate g = estimateLeaf g c := by
  cases c with
  | and cs | or cs => simp [isCompound] at h
  | not c => simp [isCompound] at h
  | map c m => simp [isCompound] at h
  | _ => rw [estimate] <;> simp

theorem estimates_eq_ok_iff :
    estimates g cs = .ok es ↔ List.Forall₂ (fun c e => c.estimate g = .ok e) cs es := by
  induction cs generalizing es with
  | nil =>
    rw [List.forall₂_nil_left_iff]
    exact ⟨fun h => (Except.ok.inj h).symm, fun h => by rw [h]; rfl⟩
  | cons c cs ih =>
    rw [List.forall₂_cons_left_iff]
    constructor
    · intro h
      obtain ⟨e, he, h⟩ := bind_eq_ok_iff.mp h
      obtain ⟨rest, hrest, h⟩ := bind_eq_ok_iff.mp h
      cases h
      exact ⟨e, rest, he, ih.mp hrest, rfl⟩
    · rintro ⟨e, rest, he, hrest, rfl⟩
      exact bind_eq_ok_iff.mpr ⟨e, he, bind_eq_ok_iff.mpr ⟨rest, ih.mpr hrest, rfl⟩⟩

/-- Every estimate of a list is that of one of the conditions. -/
theorem exists_mem_of_estimates (h : estimates g cs = .ok es) (he : e ∈ es) : ∃ c ∈ cs, c.estimate g = .ok e := by
  have hforall := estimates_eq_ok_iff.mp h
  clear h
  induction hforall with
  | nil => simp at he
  | cons hc _ ih =>
    rcases List.mem_cons.mp he with rfl | he
    · exact ⟨_, by simp, hc⟩
    · obtain ⟨c, hmem, hc⟩ := ih he
      exact ⟨c, by simp [hmem], hc⟩

/-- Every condition of a list has an estimate among those of the list. -/
theorem exists_estimate_of_mem (h : estimates g cs = .ok es) (hc : c ∈ cs) : ∃ e ∈ es, c.estimate g = .ok e := by
  have hforall := estimates_eq_ok_iff.mp h
  clear h
  induction hforall with
  | nil => simp at hc
  | cons hd _ ih =>
    rcases List.mem_cons.mp hc with rfl | hc
    · exact ⟨_, by simp, hd⟩
    · obtain ⟨e, hmem, he⟩ := ih hc
      exact ⟨e, by simp [hmem], he⟩

/-! ### Constraints -/

section Leaves

variable (h : g.store.Consistent) {ids : List AtomId} {cost : Double}

include h

private theorem bounds_exact (hnodup : ids.Nodup) (hids : ∀ id, id ∈ ids ↔ c.Matches g id) :
    (Estimate.exact cost ids.length).Bounds (c.matchCount g) :=
  have hcount : ids.length = c.matchCount g := length_eq_matchCount h hnodup hids
  ⟨Nat.le_of_eq hcount, Nat.le_of_eq hcount.symm⟩

private theorem bounds_none (hnone : ∀ id, ¬ c.Matches g id) : (Estimate.exact cost 0).Bounds (c.matchCount g) :=
  have hnil : ∀ id, id ∈ ([] : List AtomId) ↔ c.Matches g id := fun id => iff_of_false (by simp) (hnone id)
  bounds_exact h List.nodup_nil hnil

private theorem bounds_above (hlower : e.lower = 0) (hupper : e.upper = ids.length)
    (hids : ∀ id, c.Matches g id → id ∈ ids) : e.Bounds (c.matchCount g) :=
  ⟨hlower ▸ Nat.zero_le _, hupper ▸ matchCount_le_length h hids⟩

omit h in
private theorem bounds_atomCount (hlower : e.lower = 0) (hupper : e.upper = g.store.atomCount) :
    e.Bounds (c.matchCount g) :=
  ⟨hlower ▸ Nat.zero_le _, hupper ▸ matchCount_le_atomCount⟩

private theorem bounds_typedValue (hsets : g.store.SetsAscending) {ty : AtomId} {literal : Value} {op : Comparison}
    (hholds : ∀ a, c.Holds g a ↔ a.type = ty ∧ a.value.satisfies op literal = true)
    (he : estimateTypedValue g.store ty literal op = .ok e) : e.Bounds (c.matchCount g) := by
  have htype : ∀ id, c.Matches g id → id ∈ g.store.byType.ids ty := by
    rintro id ⟨a, ha, hh⟩
    exact (mem_typeIds h).mpr ⟨a, ha, ((hholds a).mp hh).1⟩
  obtain ⟨index?, hlookup, he⟩ := bind_eq_ok_iff.mp he
  cases index? with
  | some index =>
    have hindex := (Planner.valueLookup_eq_some hlookup).1
    cases hop : op == .eq with
    | true =>
      simp only [hop, if_true] at he
      cases he
      rw [beq_iff_eq.mp hop] at hholds
      refine bounds_exact h (nodup_matching_of_usedSlots h hsets (mem_usedSlots_valueIndex hindex) literal) fun id => ?_
      rw [mem_matching_valueIndex h hindex]
      exact exists_congr fun a => and_congr_right fun _ => (hholds a).symm
    | false =>
      simp only [hop, Bool.false_eq_true, if_false] at he
      cases he
      exact bounds_above h rfl rfl htype
  | none =>
    cases he
    exact bounds_above h rfl rfl htype

private theorem bounds_indexedPart (hsets : g.store.SetsAscending) {ty : AtomId} {path : String} {index : IndexHandle}
    {literal : Value} {op : Comparison} (hindex : g.store.partIndex? ty path = some index) :
    (estimateIndexedPart g.store index literal op).Bounds
      ((Condition.indexedPart ty path index literal op).matchCount g) := by
  have hused := mem_usedSlots_partIndex hindex
  have hall : ∀ id, (Condition.indexedPart ty path index literal op).Matches g id →
      id ∈ (index.entries g.store).allIds := by
    rintro id ⟨a, ha, hh⟩
    obtain ⟨hty, part, hpart, -⟩ := holds_indexedPart_iff.mp hh
    exact (mem_allIds_of_usedSlots h hused).mpr ⟨a, ha, part, by rw [partKey, if_pos hty, hpart]⟩
  unfold estimateIndexedPart
  cases hrange : op.isRange with
  | true =>
    simp only [Bool.not_true, Bool.false_eq_true, if_false]
    split
    · exact bounds_above h rfl rfl hall
    · exact bounds_above h rfl rfl hall
  | false =>
    have hop : op = .eq := by cases op <;> simp_all [Comparison.isRange]
    subst hop
    have hexact : (Estimate.exact Estimate.partCost (index.countKey g.store literal)).Bounds
        ((Condition.indexedPart ty path index literal .eq).matchCount g) := by
      exact bounds_exact h (nodup_matching_of_usedSlots h hsets hused literal) fun id =>
        Planner.mem_matching_iff_matches h hindex
    simp only [Bool.not_false, if_true]
    split
    · exact hexact
    · exact hexact

private theorem bounds_link {pattern : List Target} (hnil : pattern.isEmpty = true → ∀ a, ¬ c.Holds g a)
    (hholds : ∀ a, c.Holds g a → ∀ id, .atom id ∈ pattern → id ∈ a.targets) :
    (estimateLink g.store pattern).Bounds (c.matchCount g) := by
  unfold estimateLink
  by_cases hempty : pattern.isEmpty = true
  · rw [if_pos hempty]
    exact bounds_none h fun id ⟨a, _, hh⟩ => hnil hempty a hh
  · rw [if_neg hempty]
    have hcount : ∀ id ∈ LinkPattern.concrete pattern, c.matchCount g ≤ g.store.incidenceCardinality id := by
      refine fun id hid => matchCount_le_length h ?_
      rintro x ⟨a, ha, hh⟩
      exact (mem_incidentIds h).mpr ⟨a, ha, hholds a hh id (LinkPattern.mem_concrete.mp hid)⟩
    rcases hconcrete : LinkPattern.concrete pattern with _ | ⟨id, ids⟩
    · exact bounds_atomCount rfl rfl
    · rw [hconcrete] at hcount
      refine ⟨Nat.zero_le _, List.foldlRecOn (motive := fun upper => c.matchCount g ≤ upper) ids _
        (hcount id (by simp)) fun upper hupper x hx => ?_⟩
      exact Nat.le_min.mpr ⟨hupper, hcount x (by simp [hx])⟩

/-- The bounds of a constraint hold the number of its matches, if indexes are the registered ones. -/
theorem leaf_bounds (hsets : g.store.SetsAscending) (hleaf : c.isCompound = false)
    (hindex : ∀ ty path index literal op, c = .indexedPart ty path index literal op →
      g.store.partIndex? ty path = some index)
    (he : c.estimate g = .ok e) : e.Bounds (c.matchCount g) := by
  rw [estimate_of_not_isCompound hleaf] at he
  cases c with
  | any =>
    cases he
    have hall : ((g.store.atoms.toList.map Atom.id).length) = g.store.atomCount := by simp [atomCount]
    rw [← hall]
    refine bounds_exact h (nodup_atomIds h) fun id => (mem_atomIds h).trans ?_
    exact exists_congr fun a => by simp
  | nothing =>
    cases he
    exact bounds_none h fun id ⟨a, _, hh⟩ => not_holds_nothing hh
  | ofType ty =>
    obtain ⟨id, hid, he⟩ := bind_eq_ok_iff.mp he
    cases he
    refine bounds_exact h (nodup_ids hsets.byType) fun x => (mem_typeIds h).trans ?_
    refine exists_congr fun a => and_congr_right fun _ => ?_
    rw [Holds, eval_ofType hid]
    simp
  | ofTypePlus ty =>
    obtain ⟨id, hid, he⟩ := bind_eq_ok_iff.mp he
    obtain ⟨below, hbelow, he⟩ := bind_eq_ok_iff.mp he
    cases he
    refine bounds_exact h (nodup_flatMap_typeIds h hsets (nodup_subtypes hbelow)) fun x => ?_
    rw [List.mem_flatMap]
    constructor
    · rintro ⟨ty', hty', hx⟩
      obtain ⟨a, ha, rfl⟩ := (mem_typeIds h).mp hx
      refine ⟨a, ha, ?_⟩
      rw [Holds, eval_ofTypePlus hid hbelow]
      simp [hty']
    · rintro ⟨a, ha, hh⟩
      rw [Holds, eval_ofTypePlus hid hbelow] at hh
      exact ⟨a.type, by simpa using Except.ok.inj hh, (mem_typeIds h).mpr ⟨a, ha, rfl⟩⟩
  | value literal op =>
    obtain ⟨u, hnull, he⟩ := bind_eq_ok_iff.mp he
    have hnull := notNull_of_rejectNull hnull
    rcases hty : g.store.typeOfValue literal with _ | ty
    · simp only [hty] at he
      cases he
      exact bounds_atomCount rfl rfl
    · simp only [hty] at he
      refine bounds_typedValue h hsets (fun a => ?_) he
      rw [Holds, eval_value_of_some hnull hty]
      simp
  | typedValue ty literal op =>
    obtain ⟨u, hnull, he⟩ := bind_eq_ok_iff.mp he
    obtain ⟨id, hid, he⟩ := bind_eq_ok_iff.mp he
    refine bounds_typedValue h hsets (fun a => ?_) he
    rw [Holds, eval_typedValue (notNull_of_rejectNull hnull) hid]
    simp
  | part path literal op =>
    cases he
    exact bounds_atomCount rfl rfl
  | indexedPart ty path index literal op =>
    cases he
    exact bounds_indexedPart h hsets (hindex ty path index literal op rfl)
  | incident id =>
    cases he
    refine bounds_exact h (nodup_ids hsets.incidence) fun x => (mem_incidentIds h).trans ?_
    refine exists_congr fun a => and_congr_right fun _ => ?_
    have hanswer : ((Condition.incident id).eval g a).answer = .ok (a.targets.contains id) := rfl
    rw [Holds, hanswer]
    simp
  | link pattern =>
    cases he
    refine bounds_link h (fun hempty a hh => ?_) fun a hh id hid => ?_
    · have hmatches : LinkPattern.matchesInAnyOrder pattern a.targets = true := Except.ok.inj hh
      simp [LinkPattern.matchesInAnyOrder, hempty] at hmatches
    · have hmatches : LinkPattern.matchesInAnyOrder pattern a.targets = true := Except.ok.inj hh
      simp only [LinkPattern.matchesInAnyOrder, Bool.and_eq_true] at hmatches
      exact LinkPattern.mem_of_takeable hmatches.2 hid
  | orderedLink pattern =>
    cases he
    refine bounds_link h (fun hempty a hh => ?_) fun a hh id hid => ?_
    · have hmatches : LinkPattern.matchesInOrder pattern a.targets = true := Except.ok.inj hh
      simp [LinkPattern.matchesInOrder, hempty] at hmatches
    · exact LinkPattern.mem_of_matchesInOrder (Except.ok.inj hh) hid
  | targetOf id =>
    obtain ⟨link, hlink, he⟩ := bind_eq_ok_iff.mp he
    cases he
    refine bounds_exact h (AtomSet.nodup_of_ascending (AtomSet.sorted_ofList _)) fun x => ?_
    exact AtomSet.mem_ofList.trans (Planner.mem_targets_iff_matches h hlink)
  | subsumes id | subsumed id | walk w | predicate number =>
    cases he
    exact bounds_atomCount rfl rfl
  | and cs | or cs => simp [isCompound] at hleaf
  | not operand => simp [isCompound] at hleaf
  | map operand mapping => simp [isCompound] at hleaf

end Leaves

/-! ### All conditions -/

private theorem between_typedValue {ty : AtomId} {literal : Value} {op : Comparison}
    (he : estimateTypedValue g.store ty literal op = .ok e) : e.Between := by
  obtain ⟨index?, hlookup, he⟩ := bind_eq_ok_iff.mp he
  cases index? with
  | some index =>
    cases hop : op == .eq with
    | true =>
      simp only [hop, if_true] at he
      cases he
      exact Estimate.between_exact
    | false =>
      simp only [hop, Bool.false_eq_true, if_false] at he
      cases he
      exact ⟨Nat.zero_le _, Nat.div_le_self _ _⟩
  | none =>
    cases he
    exact Estimate.between_orderedScan

private theorem between_link {pattern : List Target} : (estimateLink g.store pattern).Between := by
  unfold estimateLink
  split
  · exact Estimate.between_exact
  · split
    · exact Estimate.between_orderedScan
    · exact ⟨Nat.zero_le _, Nat.le_refl _⟩

private theorem between_leaf (hleaf : c.isCompound = false) (he : c.estimate g = .ok e) : e.Between := by
  rw [estimate_of_not_isCompound hleaf] at he
  cases c with
  | any | nothing | incident id =>
    cases he
    exact Estimate.between_exact
  | ofType ty | targetOf ty =>
    obtain ⟨_, -, he⟩ := bind_eq_ok_iff.mp he
    cases he
    exact Estimate.between_exact
  | ofTypePlus ty =>
    obtain ⟨_, -, he⟩ := bind_eq_ok_iff.mp he
    obtain ⟨_, -, he⟩ := bind_eq_ok_iff.mp he
    cases he
    exact Estimate.between_exact
  | value literal op =>
    obtain ⟨_, -, he⟩ := bind_eq_ok_iff.mp he
    split at he
    · exact between_typedValue he
    · cases he
      exact Estimate.between_orderedScan
  | typedValue ty literal op =>
    obtain ⟨_, -, he⟩ := bind_eq_ok_iff.mp he
    obtain ⟨_, -, he⟩ := bind_eq_ok_iff.mp he
    exact between_typedValue he
  | indexedPart ty path index literal op =>
    cases he
    unfold estimateIndexedPart
    split
    · split
      · exact Estimate.between_exact
      · exact ⟨Nat.le_refl _, Nat.le_refl _⟩
    · split
      · exact ⟨Nat.zero_le _, Nat.le_refl _⟩
      · exact Estimate.between_orderedScan
  | link pattern | orderedLink pattern =>
    cases he
    exact between_link
  | part path literal op | subsumes id | subsumed id | walk w | predicate number =>
    cases he
    exact ⟨Nat.zero_le _, Nat.div_le_self _ _⟩
  | and cs | or cs => simp [isCompound] at hleaf
  | not operand => simp [isCompound] at hleaf
  | map operand mapping => simp [isCompound] at hleaf

theorem estimate_not {operand : Condition} (he : (Condition.not operand).estimate g = .ok e) :
    ∃ inner, operand.estimate g = .ok inner ∧ inner.isPredicate = true ∧
      e = .test inner.cost g.store.atomCount := by
  obtain ⟨inner, hinner, he⟩ := bind_eq_ok_iff.mp he
  split at he
  · rename_i hpredicate
    cases he
    exact ⟨inner, hinner, hpredicate, rfl⟩
  · simp at he

/-- The size expected lies between the bounds. -/
theorem expected_between (he : c.estimate g = .ok e) : e.Between := by
  induction c using treeInduction generalizing e with
  | and cs ih =>
    obtain ⟨es, hes, he⟩ := bind_eq_ok_iff.mp he
    cases he
    refine Estimate.between_conjunction fun d hd => ?_
    obtain ⟨c, hc, hd⟩ := exists_mem_of_estimates hes hd
    exact ih c hc hd
  | or cs ih =>
    obtain ⟨es, hes, he⟩ := bind_eq_ok_iff.mp he
    cases he
    refine Estimate.between_disjunction fun d hd => ?_
    obtain ⟨c, hc, hd⟩ := exists_mem_of_estimates hes hd
    exact ih c hc hd
  | not operand _ =>
    obtain ⟨inner, -, -, rfl⟩ := estimate_not he
    exact ⟨Nat.zero_le _, Nat.div_le_self _ _⟩
  | map operand mapping ih =>
    obtain ⟨inner, hinner, he⟩ := bind_eq_ok_iff.mp he
    cases he
    exact ⟨Nat.zero_le _, (ih hinner).le_upper⟩
  | leaf c hleaf => exact between_leaf hleaf he

/-- The indexes that the conditions name are the registered ones. -/
def Registered (s : Store) (cs : List Condition) : Prop :=
  ∀ ty path index literal op, Condition.indexedPart ty path index literal op ∈ cs → s.partIndex? ty path = some index

theorem Registered.mono {s : Store} {ds : List Condition} (h : Registered s ds) (hsub : ∀ c ∈ cs, c ∈ ds) :
    Registered s cs := fun ty path index literal op hmem => h ty path index literal op (hsub _ hmem)

private theorem sum_matchCount_le (hes : List.Forall₂ (fun c e => c.estimate g = .ok e) cs es)
    (hle : ∀ c ∈ cs, ∀ e, c.estimate g = .ok e → c.matchCount g ≤ e.upper) :
    (cs.map (matchCount g)).sum ≤ (es.map Estimate.upper).sum := by
  induction hes with
  | nil => exact Nat.le_refl 0
  | cons hc _ ih =>
    simp only [List.map_cons, List.sum_cons]
    exact Nat.add_le_add (hle _ (by simp) _ hc) (ih fun d hd => hle d (by simp [hd]))

section Reachable

variable (hreach : g.store.Reachable)

include hreach

/-- There are no more matches than the upper bound says, whether or not every stored atom decides the condition. -/
theorem matchCount_le_upper (hindex : Registered g.store c.leaves) (he : c.estimate g = .ok e) :
    c.matchCount g ≤ e.upper := by
  have h := hreach.consistent.1
  induction c using combinatorInduction generalizing e with
  | and cs ih =>
    obtain ⟨es, hes, he⟩ := bind_eq_ok_iff.mp he
    cases he
    refine Estimate.le_upper_conjunction matchCount_le_atomCount fun d hd => ?_
    obtain ⟨c, hc, hd⟩ := exists_mem_of_estimates hes hd
    have hfewer : (Condition.and cs).matchCount g ≤ c.matchCount g :=
      matchCount_mono h fun id ⟨a, ha, hh⟩ => ⟨a, ha, holds_and.mp hh c hc⟩
    have hc' : c.matchCount g ≤ d.upper := ih c hc (hindex.mono fun l hl => mem_leavesOf.mpr ⟨c, hc, hl⟩) hd
    exact Nat.le_trans hfewer hc'
  | or cs ih =>
    obtain ⟨es, hes, he⟩ := bind_eq_ok_iff.mp he
    cases he
    have hsum : (cs.map (matchCount g)).sum ≤ (es.map Estimate.upper).sum :=
      sum_matchCount_le (estimates_eq_ok_iff.mp hes) fun c hc e he =>
        ih c hc (hindex.mono fun l hl => mem_leavesOf.mpr ⟨c, hc, hl⟩) he
    exact Estimate.le_upper_disjunction matchCount_le_atomCount (Nat.le_trans (matchCount_or_le h) hsum)
  | leaf c hleaf =>
    rw [leaves_of_not_isCombinator hleaf] at hindex
    by_cases hcompound : c.isCompound = true
    · cases c with
      | not operand =>
        obtain ⟨inner, -, -, rfl⟩ := estimate_not he
        exact matchCount_le_atomCount
      | map operand mapping =>
        -- a mapped condition is true of no atom
        have hnone : (Condition.map operand mapping).matchCount g ≤ ([] : List AtomId).length :=
          matchCount_le_length h fun id ⟨a, _, hh⟩ => absurd hh not_holds_map
        exact Nat.le_trans hnone (Nat.zero_le _)
      | and cs | or cs => simp [isCombinator] at hleaf
      | _ => simp [isCompound] at hcompound
    · refine (leaf_bounds h hreach.setsAscending (Bool.eq_false_iff.mpr hcompound) ?_ he).2
      exact fun ty path index literal op heq => hindex ty path index literal op (by simp [heq])

/-- There are as many matches as the lower bound says, if stored atoms decide what the condition is made of. -/
theorem lower_le_matchCount (hdecided : ∀ l ∈ c.basics, ∀ id a, g.store.atom? id = some a → l.Decided g a)
    (hindex : Registered g.store c.leaves) (he : c.estimate g = .ok e) : e.lower ≤ c.matchCount g := by
  have h := hreach.consistent.1
  induction c using combinatorInduction generalizing e with
  | and cs ih =>
    obtain ⟨es, hes, he⟩ := bind_eq_ok_iff.mp he
    cases he
    cases hes' : es with
    | nil =>
      -- the empty conjunction is true of every atom
      rw [hes', estimates_eq_ok_iff, List.forall₂_nil_right_iff] at hes
      rw [hes]
      have hall : Condition.any.matchCount g ≤ (Condition.and []).matchCount g :=
        matchCount_mono h fun id ⟨a, ha, _⟩ => ⟨a, ha, holds_and.mpr (by simp)⟩
      exact Nat.le_trans (leaf_bounds h hreach.setsAscending (c := .any) rfl (by simp) rfl).1 hall
    | cons d rest =>
      show ((d :: rest).foldl Estimate.meet _).lower ≤ _
      rw [Estimate.lower_foldl_meet rfl]
      exact Nat.zero_le _
  | or cs ih =>
    obtain ⟨es, hes, he⟩ := bind_eq_ok_iff.mp he
    cases he
    refine Estimate.lower_disjunction_le fun d hd => ?_
    obtain ⟨c, hc, hd⟩ := exists_mem_of_estimates hes hd
    have hbasics : ∀ c ∈ cs, ∀ l ∈ c.basics, ∀ id a, g.store.atom? id = some a → l.Decided g a :=
      fun c hc l hl => hdecided l (mem_basicsOf.mpr ⟨c, hc, hl⟩)
    have hmore : c.matchCount g ≤ (Condition.or cs).matchCount g := by
      refine matchCount_mono h fun id ⟨a, ha, hh⟩ => ⟨a, ha, (holds_or fun d hd => ?_).mpr ⟨c, hc, hh⟩⟩
      exact decided_of_basics d fun l hl => hbasics d hd l hl id a ha
    exact Nat.le_trans (ih c hc (hbasics c hc) (hindex.mono fun l hl => mem_leavesOf.mpr ⟨c, hc, hl⟩) hd) hmore
  | leaf c hleaf =>
    rw [leaves_of_not_isCombinator hleaf] at hindex
    by_cases hcompound : c.isCompound = true
    · cases c with
      | not operand =>
        obtain ⟨inner, -, -, rfl⟩ := estimate_not he
        exact Nat.zero_le _
      | map operand mapping =>
        obtain ⟨inner, -, he⟩ := bind_eq_ok_iff.mp he
        cases he
        exact Nat.zero_le _
      | and cs | or cs => simp [isCombinator] at hleaf
      | _ => simp [isCompound] at hcompound
    · refine (leaf_bounds h hreach.setsAscending (Bool.eq_false_iff.mpr hcompound) ?_ he).1
      exact fun ty path index literal op heq => hindex ty path index literal op (by simp [heq])

end Reachable

/-- The bounds of an estimate hold the number of stored atoms of which the condition is true, and the size expected,
provided that stored atoms decide the constraints of the condition, which rules mappings out, and that indexes are the
registered ones. -/
theorem bounds_of_estimate (hreach : g.store.Reachable)
    (hdecided : ∀ l ∈ c.basics, ∀ id a, g.store.atom? id = some a → l.Decided g a)
    (hindex : ∀ ty path index literal op, Condition.indexedPart ty path index literal op ∈ c.basics →
      g.store.partIndex? ty path = some index)
    (he : c.estimate g = .ok e) :
    (e.lower ≤ c.matchCount g ∧ c.matchCount g ≤ e.upper) ∧ (e.lower ≤ e.expected ∧ e.expected ≤ e.upper) ∧
      (e.isExact = true → c.matchCount g = e.upper) := by
  have hregistered : Registered g.store c.leaves := fun ty path index literal op hmem =>
    hindex ty path index literal op (mem_basics_iff_leaves.mpr ⟨_, hmem, by simp [basics]⟩)
  have hlower : e.lower ≤ c.matchCount g := lower_le_matchCount hreach hdecided hregistered he
  have hupper : c.matchCount g ≤ e.upper := matchCount_le_upper hreach hregistered he
  have hbetween := expected_between he
  refine ⟨⟨hlower, hupper⟩, ⟨hbetween.lower_le, hbetween.le_upper⟩, fun hexact => ?_⟩
  have heq : e.lower = e.upper := beq_iff_eq.mp hexact
  exact Nat.le_antisymm hupper (heq ▸ hlower)

/-- A disjunction of a type with a conjunction that has a negation in it, over the store with the value 5. -/
theorem bounds_of_estimate_nested :
    let g : Graph := .ofStore (oneValueStore (.int 5))
    let c : Condition := .or [.ofType (.handle 3), .and [.incident 1, .not (.value (.int 7) .eq)]]
    ∃ e, c.estimate g = .ok e ∧ (e.lower ≤ c.matchCount g ∧ c.matchCount g ≤ e.upper) ∧
      (e.lower ≤ e.expected ∧ e.expected ≤ e.upper) ∧ (e.isExact = true → c.matchCount g = e.upper) := by
  intro g c
  have hbasics : c.basics = [.ofType (.handle 3), .incident 1, .value (.int 7) .eq] := rfl
  have hok : (c.estimate g).isOk = true := by decide +kernel
  obtain ⟨e, he⟩ := exists_of_isOk hok
  have hdecided : ∀ l ∈ c.basics, ∀ id a, g.store.atom? id = some a → l.Decided g a := by
    rw [hbasics]
    simp only [List.forall_mem_cons]
    exact ⟨fun _ _ _ => ⟨_, rfl⟩, fun _ _ _ => ⟨_, rfl⟩, fun _ _ _ => ⟨_, eval_value_of_none rfl rfl⟩, by simp⟩
  have hindex : ∀ ty path index literal op, Condition.indexedPart ty path index literal op ∈ c.basics →
      g.store.partIndex? ty path = some index := by
    simp [hbasics]
  exact ⟨e, he, bounds_of_estimate (reachable_oneValueStore _) hdecided hindex he⟩

end Condition

end HyperQuery
