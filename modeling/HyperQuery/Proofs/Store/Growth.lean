import HyperQuery.Proofs.Store.Handles
import HyperQuery.Proofs.Walk

/-!
# Stores that grow

Storing atoms, and links that say nothing about types, leaves everything that planning looks up (`Store.Grows`): what was
stored stays, types and their indexes are the same, and so are the types below a type (`Grows.subtypes`), although there
can be more links to look through. Operations that store data, whether or not they succeed, let a store grow
(`grows_attempts`).
-/

namespace HyperQuery

theorem Reach.mono {next next' : AtomId → List AtomId} {x z : AtomId} (h : Reach next x z)
    (hnext : ∀ y, ∀ z ∈ next y, z ∈ next' y) : Reach next' x z := by
  induction h with
  | refl => exact .refl
  | step _ hz ih => exact .step ih (hnext _ _ hz)

namespace Store

variable {s s' s'' : Store}

/-! ### Types below a type -/

/-- The types directly below a type. -/
def below (s : Store) (ty : AtomId) : List AtomId :=
  match s.directSubtypes ty with
  | .ok ids => ids
  | .error _ => []

private theorem mem_specifics {ty z : AtomId} {a : Atom} :
    (z ∈ match a.targets with
      | general :: specifics => if a.type = subsumesType ∧ general = ty then specifics else []
      | [] => []) ↔ a.type = subsumesType ∧ ∃ specifics, a.targets = ty :: specifics ∧ z ∈ specifics := by
  cases htargets : a.targets with
  | nil => simp
  | cons general specifics =>
    by_cases h : a.type = subsumesType ∧ general = ty
    · obtain ⟨htype, rfl⟩ := h
      simp [htype]
    · simp only [h, if_false, List.not_mem_nil, List.cons.injEq, false_iff]
      rintro ⟨htype, _, ⟨rfl, -⟩, -⟩
      exact h ⟨htype, rfl⟩

/-- Links of a type of their own say which types are directly below a type. -/
private theorem exists_directSubtypes (h : s.Consistent) (ty : AtomId) :
    s.directSubtypes ty = .ok (s.below ty) ∧ ∀ z, z ∈ s.below ty ↔ ∃ id a, s.atom? id = some a ∧
      a.type = subsumesType ∧ ∃ specifics, a.targets = ty :: specifics ∧ z ∈ specifics := by
  have hstored : ∀ link ∈ s.incidence.ids ty, ∃ a, s.atom link = .ok a := by
    intro link hlink
    obtain ⟨a, ha, -⟩ := (mem_incidentIds h).mp hlink
    exact ⟨a, by simp [Store.atom, ha]⟩
  obtain ⟨links, hlinks⟩ := exists_mapM_eq_ok hstored
  have hdirect : s.directSubtypes ty = .ok (links.flatMap fun link =>
      match link.targets with
      | general :: specifics => if link.type = subsumesType ∧ general = ty then specifics else []
      | [] => []) := by
    rw [directSubtypes, hlinks]
    rfl
  rw [below, hdirect]
  refine ⟨rfl, fun z => ?_⟩
  simp only [List.mem_flatMap, mem_specifics]
  constructor
  · rintro ⟨a, ha, hspecifics⟩
    obtain ⟨id, -, hatom⟩ := (mem_of_mapM_eq_ok hlinks).mp ha
    exact ⟨id, a, atom?_of_atom hatom, hspecifics⟩
  · rintro ⟨id, a, ha, htype, specifics, htargets, hz⟩
    have hincident : id ∈ s.incidence.ids ty := (mem_incidentIds h).mpr ⟨a, ha, by simp [htargets]⟩
    exact ⟨a, (mem_of_mapM_eq_ok hlinks).mpr ⟨id, hincident, by simp [Store.atom, ha]⟩, htype, specifics, htargets, hz⟩

theorem mem_below (h : s.Consistent) {ty z : AtomId} : z ∈ s.below ty ↔ ∃ id a, s.atom? id = some a ∧
    a.type = subsumesType ∧ ∃ specifics, a.targets = ty :: specifics ∧ z ∈ specifics := (exists_directSubtypes h ty).2 z

/-- The types at or below a type can be listed, and they are those that subsumption links lead to. -/
theorem exists_subtypes (h : s.Consistent) {ty : AtomId} {d : TypeDescriptor} (hd : s.descriptor ty = .ok d) :
    ∃ types, s.subtypes ty = .ok types ∧ types.Pairwise (· < ·) ∧ ∀ z, z ∈ types ↔ Reach s.below ty z := by
  have hnext : ∀ x, ∀ z ∈ s.below x, z ∈ s.linkTargets := by
    intro x z hz
    obtain ⟨id, a, ha, -, specifics, htargets, hz⟩ := (mem_below h).mp hz
    exact (mem_linkTargets h).mpr ⟨id, a, ha, by simp [htargets, hz]⟩
  have hroom : explorationRoom s.linkTargets [ty] [ty] ≤ s.closureFuel := by
    have h1 := List.length_filter_le (fun z => !([ty].contains z)) s.linkTargets
    have h2 := length_linkTargets_le_atoms h
    unfold explorationRoom closureFuel
    simp only [List.length_singleton]
    omega
  have hneighbours : ∀ x, (Metered.ofExcept (s.directSubtypes x)).answer = .ok (s.below x) :=
    fun x => (exists_directSubtypes h x).1
  obtain ⟨taken, found, hexplores, hanswer, hfound⟩ :=
    closure_explores nodup_linkTargets hneighbours hnext (fun _ hz => hz) hroom
  refine ⟨AtomSet.ofList found, ?_, AtomSet.sorted_ofList found, fun z => ?_⟩
  · rw [subtypes, hd]
    change (closure _ _ _ _).answer >>= _ = _
    rw [hanswer]
    rfl
  · rw [AtomSet.mem_ofList, hfound, ← hexplores.mem_iff_reach]
    exact ⟨fun hz => hz.elim (fun hz => hexplores.mem_of_mem_pending hz) id, .inr⟩

/-! ### Growing -/

/-- More is stored in the second store, but what types there are, with their indexes and what is below them, is the
same. -/
structure Grows (s s' : Store) : Prop where
  types : s'.types = s.types
  kindTypes : s'.kindTypes = s.kindTypes
  valueIndexes : s'.valueIndexes = s.valueIndexes
  partIndexes : s'.partIndexes = s.partIndexes
  stored : ∀ {id a}, s.atom? id = some a → s'.atom? id = some a
  subsumptions : ∀ {id a}, s'.atom? id = some a → a.type = subsumesType → a.targets ≠ [] → s.atom? id = some a

namespace Grows

theorem refl : s.Grows s := ⟨rfl, rfl, rfl, rfl, id, fun h _ _ => h⟩

theorem trans (h : s.Grows s') (h' : s'.Grows s'') : s.Grows s'' where
  types := h'.types.trans h.types
  kindTypes := h'.kindTypes.trans h.kindTypes
  valueIndexes := h'.valueIndexes.trans h.valueIndexes
  partIndexes := h'.partIndexes.trans h.partIndexes
  stored ha := h'.stored (h.stored ha)
  subsumptions ha htype htargets := h.subsumptions (h'.subsumptions ha htype htargets) htype htargets

variable (h : s.Grows s')

include h

theorem descriptor (ty : AtomId) : s'.descriptor ty = s.descriptor ty := by rw [Store.descriptor, h.types, ← Store.descriptor]

theorem resolve (ty : TypeRef) : ty.resolve s' = ty.resolve s := by
  cases ty with
  | handle id => rfl
  | named name => rw [TypeRef.resolve, typeHandle, h.types, ← typeHandle, ← TypeRef.resolve]

theorem typeOfValue (v : Value) : s'.typeOfValue v = s.typeOfValue v := by
  rw [Store.typeOfValue, h.kindTypes, ← Store.typeOfValue]

theorem partIndex? (ty : AtomId) (path : String) : s'.partIndex? ty path = s.partIndex? ty path := by
  rw [Store.partIndex?, h.partIndexes, ← Store.partIndex?]

theorem valueIndex? (ty : AtomId) : s'.valueIndex? ty = s.valueIndex? ty := by
  rw [Store.valueIndex?, h.valueIndexes, ← Store.valueIndex?]

theorem atom {id : AtomId} {a : Atom} (ha : s.atom id = .ok a) : s'.atom id = .ok a := by
  rw [Store.atom, h.stored (atom?_of_atom ha)]

private theorem mem_below_iff (hs : s.Consistent) (hs' : s'.Consistent) {ty z : AtomId} :
    z ∈ s'.below ty ↔ z ∈ s.below ty := by
  rw [mem_below hs, mem_below hs']
  constructor
  · rintro ⟨id, a, ha, htype, specifics, htargets, hz⟩
    exact ⟨id, a, h.subsumptions ha htype (by simp [htargets]), htype, specifics, htargets, hz⟩
  · rintro ⟨id, a, ha, hrest⟩
    exact ⟨id, a, h.stored ha, hrest⟩

/-- The types below a type are the same, since no link is added that says otherwise. -/
theorem subtypes (hs : s.Consistent) (hs' : s'.Consistent) (ty : AtomId) : s'.subtypes ty = s.subtypes ty := by
  have hdescriptor := h.descriptor ty
  rcases hd : s.descriptor ty with e | d
  · rw [hd] at hdescriptor
    rw [Store.subtypes, Store.subtypes, hd, hdescriptor]
    rfl
  · rw [hd] at hdescriptor
    obtain ⟨types, htypes, hasc, hmem⟩ := exists_subtypes hs hd
    obtain ⟨types', htypes', hasc', hmem'⟩ := exists_subtypes hs' hdescriptor
    have hsame : types' = types := AtomSet.eq_of_mem_iff hasc' hasc fun z => by
      rw [hmem, hmem']
      exact ⟨fun hz => hz.mono fun _ _ => (h.mem_below_iff hs hs').mp, fun hz => hz.mono fun _ _ => (h.mem_below_iff hs hs').mpr⟩
    rw [htypes, htypes', hsame]

end Grows

/-! ### Operations that store data -/

/-- The operation stores an atom, or a link that does not say that a type is below another. -/
def Change.storesData : Change → Bool
  | .addAtom _ _ => true
  | .addLink ty targets _ => ty != subsumesType || targets.isEmpty
  | _ => false

private theorem grows_addLink {ty id : AtomId} {targets : List AtomId} {value : Value}
    (hdata : ty = subsumesType → targets = []) (hs : s.addLink ty targets value = .ok (id, s')) : s.Grows s' := by
  obtain ⟨_, -, hs⟩ := bind_eq_ok_iff.mp hs
  obtain ⟨_, -, hs⟩ := bind_eq_ok_iff.mp hs
  cases hs
  refine ⟨rfl, rfl, rfl, rfl, fun ha => (atom?_insert_eq_some_iff rfl).mpr (.inl ha), fun ha htype htargets => ?_⟩
  rcases (atom?_insert_eq_some_iff rfl).mp ha with ha | ⟨-, rfl⟩
  · exact ha
  · exact absurd (hdata htype) htargets

theorem grows_attempt {change : Change} (h : change.storesData = true) : s.Grows (s.attempt change) := by
  unfold attempt
  split
  · rename_i changed hs
    cases change with
    | addAtom ty value =>
      obtain ⟨id, hs⟩ := ok_of_snd hs
      exact grows_addLink (fun _ => rfl) hs
    | addLink ty targets value =>
      obtain ⟨id, hs⟩ := ok_of_snd hs
      refine grows_addLink (fun hty => ?_) hs
      simpa [Change.storesData, hty] using h
    | _ => simp [Change.storesData] at h
  · exact .refl

theorem grows_attempts {changes : List Change} (h : ∀ change ∈ changes, change.storesData = true) :
    s.Grows (changes.foldl attempt s) :=
  List.foldlRecOn _ _ .refl fun _ hs _ hchange => hs.trans (grows_attempt (h _ hchange))

end Store

end HyperQuery
