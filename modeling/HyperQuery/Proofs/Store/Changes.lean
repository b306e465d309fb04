import HyperQuery.Proofs.Store.Consistent

/-!
# Sequences of changes

A public operation is made of few elementary steps (`Store.Step`): it stores an atom, describes a type, sets the default
types of literals or adds an index. A property of the blank store that every step keeps therefore holds of every
reachable store (`Reachable.step_induction`).

A session with a graph is a sequence of operations of which some may fail (`Change`). Whatever they are, in the end the
tables beside the atoms hold exactly what the atoms say (`tables_after_changes`).
-/

namespace HyperQuery

namespace Store

variable {s s' : Store}

/-! ### Elementary steps -/

/-- The steps that operations are made of. -/
inductive Step (s : Store) : Store → Prop
  | insert {a : Atom} (hid : a.id = s.nextId) (htype : a.type = metaType ∨ ∃ d ∈ s.types, d.handle = a.type) :
    Step s (s.insert a)
  | describe {d : TypeDescriptor} (hd : ∃ a, s.atom? d.handle = some a) : Step s { s with types := s.types ++ [d] }
  | setKinds (kindTypes : List (String × AtomId)) : Step s { s with kindTypes }
  | indexValues (ty : AtomId) (index : IndexHandle) (hslot : index.slot = s.contents.size) :
    Step s { s.pushIndex .empty with valueIndexes := (ty, index) :: s.valueIndexes }
  | indexParts (ty : AtomId) (path : String) (index : IndexHandle) (hslot : index.slot = s.contents.size)
    (htype : ∃ d ∈ s.types, d.handle = ty) :
    Step s { s.pushIndex (s.partEntries ty path) with
      partIndexes := ((ty, path), index) :: s.partIndexes.filter fun entry => entry.1 != (ty, path) }

theorem exists_type_of_descriptor {ty : AtomId} {d : TypeDescriptor} (h : s.descriptor ty = .ok d) :
    ∃ d ∈ s.types, d.handle = ty := by
  unfold descriptor at h
  split at h
  · rename_i d' hfind
    have hhandle := List.find?_some hfind
    exact ⟨d', List.mem_of_find?_eq_some hfind, beq_iff_eq.mp hhandle⟩
  · simp at h

theorem exists_descriptor_of_type {d : TypeDescriptor} (hd : d ∈ s.types) : ∃ d', s.descriptor d.handle = .ok d' := by
  unfold descriptor
  split
  · exact ⟨_, rfl⟩
  · rename_i hnone
    exact absurd (List.find?_eq_none.mp hnone d hd) (by simp)

section StepInduction

variable {motive : Store → Prop} (hstep : ∀ s s', Step s s' → motive s → motive s')

include hstep

private theorem registerType_induction (h : motive s) {name : String} {search : ValueSearch}
    {dimensions : List String} : motive (s.registerType name search dimensions) := by
  let typeAtom : Atom := { id := s.nextId, type := metaType, value := .string name, targets := [] }
  have hstored : motive (s.insert typeAtom) := hstep _ _ (.insert rfl (.inl rfl)) h
  have hfound : (s.insert typeAtom).atom? s.nextId = some typeAtom := by rw [atom?_insert, if_pos rfl]
  exact hstep _ _ (.describe ⟨typeAtom, hfound⟩) hstored

private theorem defineType_induction (h : motive s) {name : String} {search : ValueSearch} {dimensions : List String}
    {id : AtomId} (hs : s.defineType name search dimensions = .ok (id, s')) : motive s' := by
  unfold defineType at hs
  split at hs
  · simp at hs
  · have hdefined : motive (s.registerType name search dimensions) := registerType_induction hstep h
    cases search with
    | none =>
      cases hs
      exact hdefined
    | point | ordered =>
      cases hs
      exact hstep _ _ (.indexValues _ _ rfl) hdefined

private theorem addLink_induction (h : motive s) {ty : AtomId} {targets : List AtomId} {value : Value} {id : AtomId}
    (hs : s.addLink ty targets value = .ok (id, s')) : motive s' := by
  obtain ⟨d, hd, hs⟩ := bind_eq_ok_iff.mp hs
  obtain ⟨_, -, hs⟩ := bind_eq_ok_iff.mp hs
  cases hs
  exact hstep _ _ (.insert rfl (.inr (exists_type_of_descriptor hd))) h

private theorem createPartIndex_induction (h : motive s) {ty : AtomId} {path : String} {ordered : Bool}
    (hs : s.createPartIndex ty path ordered = .ok s') : motive s' := by
  obtain ⟨d, hd, hs⟩ := bind_eq_ok_iff.mp hs
  cases hs
  exact hstep _ _ (.indexParts _ _ _ rfl (exists_type_of_descriptor hd)) h

private theorem declareSubtype_induction (h : motive s) {general specific id : AtomId}
    (hs : s.declareSubtype general specific = .ok (id, s')) : motive s' := by
  obtain ⟨_, -, hs⟩ := bind_eq_ok_iff.mp hs
  obtain ⟨_, -, hs⟩ := bind_eq_ok_iff.mp hs
  exact addLink_induction hstep h hs

private theorem mapValueType_induction (h : motive s) {kind : String} {ty : AtomId}
    (hs : s.mapValueType kind ty = .ok s') : motive s' := by
  obtain ⟨d, -, hs⟩ := bind_eq_ok_iff.mp hs
  cases hs
  exact hstep _ _ (.setKinds _) h

/-- What holds of the blank store and is kept by every step holds of all reachable stores. -/
theorem Reachable.step_induction (hblank : motive blank) (h : s.Reachable) : motive s := by
  induction h with
  | initial =>
    have hmeta : motive (blank.registerType "Type" .none []) := registerType_induction hstep hblank
    exact registerType_induction hstep hmeta
  | defineType _ hs ih => exact defineType_induction hstep ih hs
  | mapValueType _ hs ih => exact mapValueType_induction hstep ih hs
  | createPartIndex _ hs ih => exact createPartIndex_induction hstep ih hs
  | addAtom _ hs ih => exact addLink_induction hstep ih hs
  | addLink _ hs ih => exact addLink_induction hstep ih hs
  | declareSubtype _ hs ih => exact declareSubtype_induction hstep ih hs

end StepInduction

/-! ### Types are stored -/

/-- Described types and the types of atoms are handles of atoms that were stored at some time. -/
private def TypesNumbered (s : Store) : Prop :=
  (∀ d ∈ s.types, 0 < d.handle) ∧ ∀ id a, s.atom? id = some a → 0 < a.type

private theorem TypesNumbered.step (hstep : Step s s') (h : s.TypesNumbered) : s'.TypesNumbered := by
  obtain ⟨htypes, hatoms⟩ := h
  cases hstep with
  | insert hid htype =>
    refine ⟨htypes, fun id b hb => ?_⟩
    rcases (atom?_insert_eq_some_iff hid).mp hb with hb | ⟨-, rfl⟩
    · exact hatoms id b hb
    · rcases htype with hmeta | ⟨d, hd, hhandle⟩
      · rw [hmeta]
        exact Nat.one_pos
      · exact hhandle ▸ htypes d hd
  | describe hd =>
    refine ⟨fun d hmem => ?_, hatoms⟩
    rcases List.mem_append.mp hmem with hmem | hmem
    · exact htypes d hmem
    · -- no atom has the handle zero
      obtain ⟨a, ha⟩ := hd
      rw [List.mem_singleton.mp hmem]
      exact Nat.pos_of_ne_zero fun hzero => by simp [hzero, atom?_zero] at ha
  | setKinds | indexValues | indexParts => exact ⟨htypes, hatoms⟩

private theorem typesNumbered_blank : blank.TypesNumbered :=
  ⟨by simp [blank], fun id a ha => by cases id <;> simp [atom?, blank] at ha⟩

theorem exists_atom?_of_lt {id : AtomId} (hpos : 0 < id) (hlt : id < s.nextId) : ∃ a, s.atom? id = some a := by
  obtain ⟨n, rfl⟩ := Nat.exists_eq_succ_of_ne_zero (Nat.ne_of_gt hpos)
  rw [Nat.succ_eq_add_one, atom?_succ]
  exact ⟨_, Array.getElem?_eq_getElem (Nat.lt_of_succ_lt_succ hlt)⟩

/-- The type of an atom is an atom. -/
theorem Reachable.type_stored (h : s.Reachable) {id : AtomId} {a : Atom} (ha : s.atom? id = some a) :
    ∃ b, s.atom? a.type = some b := by
  have hpos := (h.step_induction (fun _ _ => TypesNumbered.step) typesNumbered_blank).2 id a ha
  exact exists_atom?_of_lt hpos (h.consistent.1.type_lt ha)

/-- Types are atoms. -/
theorem Reachable.handle_stored (h : s.Reachable) {d : TypeDescriptor} (hd : d ∈ s.types) :
    ∃ a, s.atom? d.handle = some a := by
  have hpos := (h.step_induction (fun _ _ => TypesNumbered.step) typesNumbered_blank).1 d hd
  exact exists_atom?_of_lt hpos (h.consistent.1.handle_lt d hd)

/-! ### Changes -/

/-- An operation that changes the schema or the data of a graph. -/
inductive Change
  | defineType (name : String) (search : ValueSearch) (dimensions : List String)
  | mapValueType (kind : String) (ty : AtomId)
  | createPartIndex (ty : AtomId) (path : String) (ordered : Bool)
  | addAtom (ty : AtomId) (value : Value)
  | addLink (ty : AtomId) (targets : List AtomId) (value : Value)
  | declareSubtype (general specific : AtomId)

/-- The store after an operation, unless it fails. -/
def perform (s : Store) : Change → Except QueryError Store
  | .defineType name search dimensions => do return (← s.defineType name search dimensions).2
  | .mapValueType kind ty => s.mapValueType kind ty
  | .createPartIndex ty path ordered => s.createPartIndex ty path ordered
  | .addAtom ty value => do return (← s.addAtom ty value).2
  | .addLink ty targets value => do return (← s.addLink ty targets value).2
  | .declareSubtype general specific => do return (← s.declareSubtype general specific).2

/-- The store after an operation that may fail, in which case it returns no other store. -/
def attempt (s : Store) (change : Change) : Store :=
  match s.perform change with
  | .ok changed => changed
  | .error _ => s

/-- The store of a new graph after a sequence of operations. -/
def afterChanges (changes : List Change) : Store := changes.foldl attempt initial

theorem ok_of_snd {α : Type} {x : Except QueryError (α × Store)}
    (h : (do return (← x).2) = Except.ok s) : ∃ a, x = .ok (a, s) := by
  obtain ⟨⟨a, t⟩, hx, heq⟩ := bind_eq_ok_iff.mp h
  cases heq
  exact ⟨a, hx⟩

theorem Reachable.perform (h : s.Reachable) {change : Change} (hs : s.perform change = .ok s') : s'.Reachable := by
  cases change with
  | defineType name search dimensions =>
    obtain ⟨id, hs⟩ := ok_of_snd hs
    exact h.defineType hs
  | mapValueType kind ty => exact h.mapValueType hs
  | createPartIndex ty path ordered => exact h.createPartIndex hs
  | addAtom ty value =>
    obtain ⟨id, hs⟩ := ok_of_snd hs
    exact h.addAtom hs
  | addLink ty targets value =>
    obtain ⟨id, hs⟩ := ok_of_snd hs
    exact h.addLink hs
  | declareSubtype general specific =>
    obtain ⟨id, hs⟩ := ok_of_snd hs
    exact h.declareSubtype hs

theorem attempt_of_ok {change : Change} (hs : s.perform change = .ok s') : s.attempt change = s' := by
  unfold attempt
  rw [hs]

theorem Reachable.attempt (h : s.Reachable) (change : Change) : (s.attempt change).Reachable := by
  unfold Store.attempt
  split
  · rename_i changed hs
    exact h.perform hs
  · exact h

theorem Reachable.attempts (h : s.Reachable) (changes : List Change) : (changes.foldl Store.attempt s).Reachable :=
  List.foldlRecOn _ _ h fun _ h change _ => h.attempt change

theorem reachable_afterChanges (changes : List Change) : (afterChanges changes).Reachable :=
  Reachable.initial.attempts changes

private theorem exists_changes_snoc (change : Change) (h : ∃ changes, s = afterChanges changes)
    (hs : s.perform change = .ok s') : ∃ changes, s' = afterChanges changes := by
  obtain ⟨changes, rfl⟩ := h
  refine ⟨changes ++ [change], ?_⟩
  rw [afterChanges, List.foldl_append, ← afterChanges]
  exact (attempt_of_ok hs).symm

/-- The reachable stores are those that sequences of operations lead to. -/
theorem Reachable.exists_changes (h : s.Reachable) : ∃ changes, s = afterChanges changes := by
  induction h with
  | initial => exact ⟨[], rfl⟩
  | defineType _ hs ih => exact exists_changes_snoc (.defineType _ _ _) ih (by rw [Store.perform, hs]; rfl)
  | mapValueType _ hs ih => exact exists_changes_snoc (.mapValueType _ _) ih hs
  | createPartIndex _ hs ih => exact exists_changes_snoc (.createPartIndex _ _ _) ih hs
  | addAtom _ hs ih => exact exists_changes_snoc (.addAtom _ _) ih (by rw [Store.perform, hs]; rfl)
  | addLink _ hs ih => exact exists_changes_snoc (.addLink _ _ _) ih (by rw [Store.perform, hs]; rfl)
  | declareSubtype _ hs ih => exact exists_changes_snoc (.declareSubtype _ _) ih (by rw [Store.perform, hs]; rfl)

/-- What every step keeps is kept by an operation. -/
theorem perform_induction {motive : Store → Prop} (hstep : ∀ s s', Step s s' → motive s → motive s') (h : motive s)
    {change : Change} (hs : s.perform change = .ok s') : motive s' := by
  cases change with
  | defineType name search dimensions =>
    obtain ⟨id, hs⟩ := ok_of_snd hs
    exact defineType_induction hstep h hs
  | mapValueType kind ty => exact mapValueType_induction hstep h hs
  | createPartIndex ty path ordered => exact createPartIndex_induction hstep h hs
  | addAtom ty value =>
    obtain ⟨id, hs⟩ := ok_of_snd hs
    exact addLink_induction hstep h hs
  | addLink ty targets value =>
    obtain ⟨id, hs⟩ := ok_of_snd hs
    exact addLink_induction hstep h hs
  | declareSubtype general specific =>
    obtain ⟨id, hs⟩ := ok_of_snd hs
    exact declareSubtype_induction hstep h hs

/-- What every step keeps is kept by a sequence of operations, whether or not they succeed. -/
theorem foldl_attempt_induction {motive : Store → Prop} (hstep : ∀ s s', Step s s' → motive s → motive s')
    (h : motive s) (changes : List Change) : motive (changes.foldl attempt s) := by
  refine List.foldlRecOn _ _ h fun t h change _ => ?_
  unfold attempt
  split
  · rename_i changed hs
    exact perform_induction hstep h hs
  · exact h

/-- The type of subsumption links is defined. -/
theorem Reachable.subsumesType_defined (h : s.Reachable) : ∃ d ∈ s.types, d.handle = subsumesType := by
  obtain ⟨changes, rfl⟩ := h.exists_changes
  refine foldl_attempt_induction (motive := fun s => ∃ d ∈ s.types, d.handle = subsumesType) ?_ (by decide) changes
  rintro s s' hstep ⟨d, hd, hhandle⟩
  cases hstep with
  | describe => exact ⟨d, List.mem_append_left _ hd, hhandle⟩
  | insert | setKinds | indexValues | indexParts => exact ⟨d, hd, hhandle⟩

/-! ### What the tables hold -/

theorem mem_usedSlots_valueIndex {ty : AtomId} {index : IndexHandle} (hindex : s.valueIndex? ty = some index) :
    (index.slot, wholeKey ty) ∈ s.usedSlots :=
  List.mem_append.mpr (.inl (List.mem_map.mpr ⟨(ty, index), mem_of_lookup hindex, rfl⟩))

theorem mem_usedSlots_partIndex {ty : AtomId} {path : String} {index : IndexHandle}
    (hindex : s.partIndex? ty path = some index) : (index.slot, partKey ty path) ∈ s.usedSlots :=
  List.mem_append.mpr (.inr (List.mem_map.mpr ⟨((ty, path), index), mem_of_lookup hindex, rfl⟩))

/-- Whatever operations were tried on a new graph, and whether or not they succeeded: the atoms of a type and the links
that point at an atom are exactly those listed, types and targets are stored, and the index over the values of a type or
over the parts at a path holds exactly the pairs of the atoms of that type. -/
theorem tables_after_changes (changes : List Change) :
    let s := afterChanges changes
    (∀ ty id, id ∈ s.byType.ids ty ↔ ∃ a, s.atom? id = some a ∧ a.type = ty) ∧
    (∀ x id, id ∈ s.incidence.ids x ↔ ∃ a, s.atom? id = some a ∧ x ∈ a.targets) ∧
    (∀ id a, s.atom? id = some a →
      (∃ b, s.atom? a.type = some b) ∧ ∀ t ∈ a.targets, ∃ b, s.atom? t = some b) ∧
    (∀ ty index, s.valueIndex? ty = some index → ∀ v id,
      (index.entries s).Has v id ↔ ∃ a, s.atom? id = some a ∧ a.type = ty ∧ a.value = v) ∧
    (∀ ty path index, s.partIndex? ty path = some index → ∀ v id,
      (index.entries s).Has v id ↔ ∃ a, s.atom? id = some a ∧ a.type = ty ∧ a.value.project path = some v) := by
  intro s
  have hreach : s.Reachable := reachable_afterChanges changes
  have h : s.Consistent := hreach.consistent.1
  refine ⟨fun ty id => mem_typeIds h, fun x id => mem_incidentIds h, fun id a ha => ⟨hreach.type_stored ha, h.targets ha⟩,
    fun ty index hindex v id => ?_, fun ty path index hindex v id => ?_⟩
  · have hentries : (index.entries s).Has v id ↔ ∃ a, s.atom? id = some a ∧ wholeKey ty a = some v :=
      h.slot_entries _ _ (mem_usedSlots_valueIndex hindex) v id
    simpa [wholeKey] using hentries
  · have hentries : (index.entries s).Has v id ↔ ∃ a, s.atom? id = some a ∧ partKey ty path a = some v :=
      h.slot_entries _ _ (mem_usedSlots_partIndex hindex) v id
    simpa [partKey] using hentries

end Store

end HyperQuery
