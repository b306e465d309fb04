import Mathlib.Data.List.Forall2
import Mathlib.Data.List.Perm.Subperm
import HyperQuery.LinkPattern

/-!
# Link patterns and targets

A link that matches a pattern, in either way, has all the atoms the pattern names among its targets.

To match in any order, the atoms that the pattern names are taken out of the targets one after the other, without looking
ahead. This finds a match if there is one: it succeeds exactly if the targets can be arranged so that they match position by
position (`matchesInAnyOrder_iff_arranged`). The order in which the remaining targets stand plays no part in it.
-/

namespace HyperQuery.LinkPattern

theorem mem_concrete {pattern : List Target} {id : AtomId} :
    id ∈ concrete pattern ↔ .atom id ∈ pattern := by
  unfold concrete
  rw [List.mem_eraseDups, List.mem_filterMap]
  constructor
  · rintro ⟨target, htarget, h⟩
    cases target with
    | atom x => cases h; exact htarget
    | any => simp at h
  · intro h
    exact ⟨_, h, rfl⟩

theorem mem_of_matchesInOrder {pattern : List Target} {targets : List AtomId} {id : AtomId}
    (h : matchesInOrder pattern targets = true) (hid : .atom id ∈ pattern) : id ∈ targets := by
  simp only [matchesInOrder, Bool.and_eq_true, beq_iff_eq] at h
  obtain ⟨⟨-, hlength⟩, hall⟩ := h
  induction pattern generalizing targets with
  | nil => simp at hid
  | cons want pattern ih =>
    cases targets with
    | nil => simp at hlength
    | cons x targets =>
      simp only [List.zip_cons_cons, List.all_cons, Bool.and_eq_true] at hall
      rcases List.mem_cons.mp hid with rfl | hid
      · have hx : id = x := by simpa [admits] using hall.1
        rw [hx]
        exact List.mem_cons_self
      · exact List.mem_cons_of_mem x (ih hid hall.2 (by simpa using hlength))

theorem mem_of_takeable {pattern : List Target} {targets : List AtomId} {id : AtomId}
    (h : takeable pattern targets = true) (hid : .atom id ∈ pattern) : id ∈ targets := by
  induction pattern generalizing targets with
  | nil => simp at hid
  | cons want pattern ih =>
    cases want with
    | any =>
      rcases List.mem_cons.mp hid with hid | hid
      · simp at hid
      · exact ih h hid
    | atom x =>
      simp only [takeable, Bool.and_eq_true, List.contains_iff_mem] at h
      rcases List.mem_cons.mp hid with hid | hid
      · cases hid
        exact h.1
      · exact List.mem_of_mem_erase (ih h.2 hid)

/-! ### Matching in any order -/

variable {pattern : List Target} {targets : List AtomId}

/-- The atoms that a pattern names, as often as it names them. -/
def named (pattern : List Target) : List AtomId :=
  pattern.filterMap fun target => match target with
    | .atom id => some id
    | .any => none

/-- Whether the atoms named in the pattern can be taken out of the targets one after the other, given how one is taken out
of a list. -/
def takeableBy (remove : AtomId → List AtomId → List AtomId) : List Target → List AtomId → Bool
  | [], _ => true
  | .any :: pattern, targets => takeableBy remove pattern targets
  | .atom id :: pattern, targets => targets.contains id && takeableBy remove pattern (remove id targets)

/-- Takes an element out of a list and puts the last one in its place. -/
def swapRemove (x : AtomId) (xs : List AtomId) : List AtomId :=
  match xs.getLast? with
  | some last => xs.dropLast.replace x last
  | none => []

theorem takeable_eq_takeableBy : takeable pattern targets = takeableBy (fun id xs => xs.erase id) pattern targets := by
  induction pattern generalizing targets with
  | nil => rfl
  | cons want pattern ih =>
    cases want with
    | any => exact ih
    | atom id => rw [takeable, takeableBy, ih]

private theorem perm_replace {x y : AtomId} {xs : List AtomId} (h : x ∈ xs ++ [y]) :
    (xs ++ [y]).Perm (x :: xs.replace x y) := by
  induction xs with
  | nil =>
    obtain rfl : x = y := by simpa using h
    exact .refl _
  | cons z xs ih =>
    by_cases hx : x = z
    · subst hx
      rw [List.replace_cons_self]
      exact (List.perm_append_singleton y xs).cons x
    · have hrest : x ∈ xs ++ [y] := (List.mem_cons.mp h).resolve_left hx
      rw [List.replace_cons, beq_false_of_ne hx]
      exact ((ih hrest).cons z).trans (.swap x z _)

theorem perm_swapRemove {x : AtomId} {xs : List AtomId} (h : x ∈ xs) : xs.Perm (x :: swapRemove x xs) := by
  rcases List.eq_nil_or_concat xs with rfl | ⟨ys, y, rfl⟩
  · simp at h
  · have hremoved : swapRemove x (ys ++ [y]) = ys.replace x y := by simp [swapRemove]
    rw [List.concat_eq_append] at h ⊢
    rw [hremoved]
    exact perm_replace h

/-- However what is left of the targets is arranged, all named atoms can be taken out exactly if there are as many of each
among the targets. -/
theorem takeableBy_iff_subperm {remove : AtomId → List AtomId → List AtomId}
    (hremove : ∀ x (xs : List AtomId), x ∈ xs → xs.Perm (x :: remove x xs)) :
    takeableBy remove pattern targets = true ↔ (named pattern).Subperm targets := by
  induction pattern generalizing targets with
  | nil => simp [takeableBy, named]
  | cons want pattern ih =>
    cases want with
    | any => exact ih
    | atom id =>
      rw [takeableBy, Bool.and_eq_true, List.contains_iff_mem, ih]
      show _ ↔ (id :: named pattern).Subperm targets
      constructor
      · rintro ⟨hid, hrest⟩
        exact (hremove id targets hid).subperm_left.mpr ((List.subperm_cons id).mpr hrest)
      · intro h
        have hid : id ∈ targets := h.subset List.mem_cons_self
        exact ⟨hid, (List.subperm_cons id).mp ((hremove id targets hid).subperm_left.mp h)⟩

theorem takeable_iff_subperm : takeable pattern targets = true ↔ (named pattern).Subperm targets := by
  rw [takeable_eq_takeableBy]
  exact takeableBy_iff_subperm fun _ _ h => List.perm_cons_erase h

theorem matchesInOrder_iff :
    matchesInOrder pattern targets = true ↔ pattern ≠ [] ∧ List.Forall₂ (fun want x => admits want x = true) pattern targets := by
  rw [matchesInOrder, Bool.and_eq_true, Bool.and_eq_true, and_assoc, beq_iff_eq, List.all_eq_true, List.forall₂_iff_zip]
  refine and_congr (by simp) ⟨fun ⟨hlength, hall⟩ => ⟨hlength.symm, fun h => hall _ h⟩, fun ⟨hlength, hall⟩ => ?_⟩
  exact ⟨hlength.symm, fun ⟨_, _⟩ h => hall h⟩

theorem named_subperm_of_forall₂ (h : List.Forall₂ (fun want x => admits want x = true) pattern targets) :
    (named pattern).Subperm targets := by
  induction h with
  | nil => exact List.nil_subperm
  | @cons want x pattern targets hwant _ ih =>
    cases want with
    | any => exact ih.cons_right x
    | atom id =>
      obtain rfl : id = x := beq_iff_eq.mp hwant
      exact (List.subperm_cons id).mpr ih

/-- If there are enough targets for the named atoms, then what is left over fits the wildcards. -/
theorem exists_arranged (h : (named pattern).Subperm targets) (hlength : targets.length = pattern.length) :
    ∃ arranged, arranged.Perm targets ∧ List.Forall₂ (fun want x => admits want x = true) pattern arranged := by
  induction pattern generalizing targets with
  | nil =>
    obtain rfl : targets = [] := List.length_eq_zero_iff.mp hlength
    exact ⟨[], .refl _, .nil⟩
  | cons want pattern ih =>
    -- the target for the first position leaves enough for the others
    obtain ⟨x, hwant, hx⟩ : ∃ x, admits want x = true ∧ (x :: named pattern).Subperm targets := by
      cases want with
      | atom id => exact ⟨id, beq_self_eq_true id, h⟩
      | any =>
        have hfewer : (named pattern).length < targets.length :=
          Nat.lt_of_le_of_lt (List.length_filterMap_le _ _) (by simp [hlength])
        obtain ⟨x, hx⟩ := h.exists_of_length_lt hfewer
        exact ⟨x, rfl, hx⟩
    have hperm : targets.Perm (x :: targets.erase x) := List.perm_cons_erase (hx.subset List.mem_cons_self)
    have hrest : (named pattern).Subperm (targets.erase x) := (List.subperm_cons x).mp (hperm.subperm_left.mp hx)
    have hlength' : (targets.erase x).length = pattern.length := by
      have := hperm.length_eq
      simp only [List.length_cons] at this hlength
      omega
    obtain ⟨arranged, harranged, hall⟩ := ih hrest hlength'
    exact ⟨x :: arranged, (harranged.cons x).trans hperm.symm, .cons hwant hall⟩

/-- A pattern with wildcards and repeated atoms matches the targets in any order exactly if it matches an arrangement of
them position by position. Atoms may as well be taken out of the targets by moving the last one into the gap. -/
theorem matchesInAnyOrder_iff_arranged (pattern : List Target) (targets : List AtomId) :
    (matchesInAnyOrder pattern targets = true ↔
      ∃ arranged, arranged.Perm targets ∧ matchesInOrder pattern arranged = true) ∧
      takeableBy swapRemove pattern targets = takeable pattern targets := by
  refine ⟨⟨fun h => ?_, fun ⟨arranged, hperm, h⟩ => ?_⟩, ?_⟩
  · rw [matchesInAnyOrder, Bool.and_eq_true, Bool.and_eq_true, beq_iff_eq, takeable_iff_subperm] at h
    obtain ⟨⟨hne, hlength⟩, hnamed⟩ := h
    obtain ⟨arranged, hperm, hall⟩ := exists_arranged hnamed hlength
    exact ⟨arranged, hperm, matchesInOrder_iff.mpr ⟨by simpa using hne, hall⟩⟩
  · obtain ⟨hne, hall⟩ := matchesInOrder_iff.mp h
    have hlength : targets.length = pattern.length := hperm.length_eq.symm.trans hall.length_eq.symm
    have hnamed : (named pattern).Subperm targets := hperm.subperm_left.mp (named_subperm_of_forall₂ hall)
    rw [matchesInAnyOrder, Bool.and_eq_true, Bool.and_eq_true, beq_iff_eq, takeable_iff_subperm]
    exact ⟨⟨by simpa using hne, hlength⟩, hnamed⟩
  · rw [Bool.eq_iff_iff, takeable_iff_subperm]
    exact takeableBy_iff_subperm fun _ _ => perm_swapRemove

/-- The wildcard stands before the atoms and is left with what they do not take. -/
example : matchesInAnyOrder [.any, .atom 4, .any, .atom 4] [4, 4, 5, 4] = true ∧
    matchesInOrder [.any, .atom 4, .any, .atom 4] [5, 4, 4, 4] = true := by decide

end HyperQuery.LinkPattern
