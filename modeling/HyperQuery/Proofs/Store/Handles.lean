import HyperQuery.Proofs.Store.Counts
import HyperQuery.Proofs.Value.Equality

/-!
# How long references to indexes stay up to date

A reference to an index can outlive the operation it was taken from: a compiled query keeps one, and so does a condition
on an indexed part. It is live (`IndexHandle.Live`) if every look-up through it answers from all atoms of the store.

The index over the values of a type is never replaced, so a reference to it is live for ever. The index over the parts at
a path is replaced by creating it once more. The slot of the old one is then retired: no operation writes to it again
(`Step.retired`). A reference taken before answers from the atoms stored until then, and so it is live exactly as long as
none with such a part is stored after it (`handles_after_changes`).
-/

namespace HyperQuery

/-- Every look-up is answered from all atoms of the store: it yields each of those whose key satisfies the comparison
once, and the number of atoms under a key is right. -/
structure IndexHandle.Live (h : IndexHandle) (s : Store) (key : Atom → Option Value) : Prop where
  find : ∀ literal, ∃ ids, (h.find s literal >>= Snapshot.drained).answer = .ok ids ∧ ids.Nodup ∧
    ∀ id, id ∈ ids ↔ ∃ a, s.atom? id = some a ∧ ∃ v, key a = some v ∧ v.satisfies .eq literal = true
  findRange : ∀ op literal, (op.isRange = true → h.isOrdered = true) →
    ∃ ids, (h.findRange s op literal >>= Snapshot.drained).answer = .ok ids ∧ ids.Nodup ∧
      ∀ id, id ∈ ids ↔ ∃ a, s.atom? id = some a ∧ ∃ v, key a = some v ∧ v.satisfies op literal = true
  countKey : ∀ literal,
    h.countKey s literal = s.atoms.toList.countP fun a => (key a).any fun v => v.satisfies .eq literal

namespace Store

variable {s s' : Store} {index : IndexHandle} {ty : AtomId} {path : String}

/-! ### Atoms stay as they are -/

theorem Step.atom? (hstep : Step s s') {id : AtomId} {a : Atom} (ha : s.atom? id = some a) :
    s'.atom? id = some a := by
  cases hstep with
  | insert hid => exact (atom?_insert_eq_some_iff hid).mpr (.inl ha)
  | describe | setKinds | indexValues | indexParts => exact ha

theorem atom?_attempts {id : AtomId} {a : Atom} (ha : s.atom? id = some a) (changes : List Change) :
    (changes.foldl attempt s).atom? id = some a :=
  foldl_attempt_induction (motive := fun t => t.atom? id = some a) (fun _ _ hstep ha => hstep.atom? ha) ha changes

/-! ### What a live reference needs -/

section Entries

variable {key : Atom → Option Value}

/-- A reference is live if the entries it leads to are the keys of the atoms. -/
theorem live_of_entries (h : s.Consistent) (hview : index.view = none) (hasc : (index.entries s).Ascending)
    (hids : (index.entries s).IdsAscending)
    (hentries : ∀ v id, (index.entries s).Has v id ↔ ∃ a, s.atom? id = some a ∧ key a = some v) :
    index.Live s key := by
  have hmatching : ∀ op literal id, id ∈ index.matching s op literal ↔
      ∃ a, s.atom? id = some a ∧ ∃ v, key a = some v ∧ v.satisfies op literal = true := by
    intro op literal id
    rw [IndexHandle.mem_matching hasc]
    constructor
    · rintro ⟨v, hv, hsat⟩
      obtain ⟨a, ha, hkey⟩ := (hentries v id).mp hv
      exact ⟨a, ha, v, hkey, hsat⟩
    · rintro ⟨a, ha, v, hkey, hsat⟩
      exact ⟨v, (hentries v id).mpr ⟨a, ha, hkey⟩, hsat⟩
  have hrange : ∀ op literal, (op.isRange = true → index.isOrdered = true) →
      ∃ ids, (index.findRange s op literal >>= Snapshot.drained).answer = .ok ids ∧ ids.Nodup ∧
        ∀ id, id ∈ ids ↔ ∃ a, s.atom? id = some a ∧ ∃ v, key a = some v ∧ v.satisfies op literal = true := by
    intro op literal hop
    obtain ⟨ids, hdrained, hnodup, -, hmem⟩ := index.exists_drained_opened (index.matching s op literal)
    refine ⟨ids, ?_, hnodup, fun id => (hmem id).trans (hmatching op literal id)⟩
    rw [IndexHandle.findRange_eq_opened fun hranged => ⟨hop hranged, hview⟩]
    exact hdrained
  have hone : ∀ v w id, (index.entries s).Has v id → (index.entries s).Has w id → v = w := by
    intro v w id hv hw
    obtain ⟨a, ha, hkey⟩ := (hentries v id).mp hv
    obtain ⟨a', ha', hkey'⟩ := (hentries w id).mp hw
    rw [ha] at ha'
    cases ha'
    exact Option.some.inj (hkey.symm.trans hkey')
  refine ⟨fun literal => hrange .eq literal (by simp [Comparison.isRange]), hrange, fun literal => ?_⟩
  let found := s.atoms.toList.filter fun a => (key a).any fun v => v.satisfies .eq literal
  have hperm : (index.matching s .eq literal).Perm (found.map Atom.id) := by
    have hnodup : (found.map Atom.id).Nodup := (nodup_atomIds h).sublist (List.filter_sublist.map Atom.id)
    refine (List.perm_ext_iff_of_nodup (IndexHandle.nodup_matching hasc hids hone literal) hnodup).mpr fun id => ?_
    rw [hmatching]
    simp only [found, List.mem_map, List.mem_filter, Option.any_eq_true]
    constructor
    · rintro ⟨a, ha, hkey⟩
      have hid := h.id_eq ha
      exact ⟨a, ⟨(mem_atoms h).mpr (hid.symm ▸ ha), hkey⟩, hid⟩
    · rintro ⟨a, ⟨ha, hkey⟩, rfl⟩
      exact ⟨a, (mem_atoms h).mp ha, hkey⟩
  rw [List.countP_eq_length_filter, IndexHandle.countKey, hperm.length_eq, List.length_map]

/-- Through a live reference every atom with a key is found, so it is among the entries. -/
theorem has_of_live (hlive : index.Live s key) (hasc : (index.entries s).Ascending) {id : AtomId} {a : Atom} {v : Value}
    (ha : s.atom? id = some a) (hkey : key a = some v) : ∃ w, (index.entries s).Has w id := by
  obtain ⟨ids, hfound, -, hmem⟩ := hlive.find v
  obtain ⟨ids', hfound', -, -, hmem'⟩ := index.exists_drained_opened (index.matching s .eq v)
  have heq : ids = ids' := Except.ok.inj (hfound.symm.trans hfound')
  have hid : id ∈ ids := (hmem id).mpr ⟨a, ha, v, hkey, Value.satisfies_eq_iff.mpr (.inl rfl)⟩
  obtain ⟨w, hw, -⟩ := (IndexHandle.mem_matching hasc).mp ((hmem' id).mp (heq ▸ hid))
  exact ⟨w, hw⟩

/-- A reference to an index in use is live. -/
theorem live_of_usedSlots (h : s.Reachable) (hused : (index.slot, key) ∈ s.usedSlots) (hview : index.view = none) :
    index.Live s key := by
  have hcons : s.Consistent := h.consistent.1
  exact live_of_entries hcons hview (hcons.slot_ascending _ key hused)
    (h.setsAscending.slot _ (hcons.slot_lt _ key hused)) (hcons.slot_entries _ key hused)

end Entries

/-! ### Slots in use -/

/-- The slots of the indexes in use. -/
def slots (s : Store) : List Nat :=
  s.valueIndexes.map (fun entry => entry.2.slot) ++ s.partIndexes.map fun entry => entry.2.slot

private theorem mem_slots_of_mem_indexEntries {a : Atom} {slot : Nat} {key : Value}
    (h : (slot, key) ∈ s.indexEntries a) : slot ∈ s.slots := by
  unfold indexEntries at h
  rcases List.mem_append.mp h with h | h
  · split at h
    · rename_i index hindex
      have hslot : slot = index.slot := (Prod.mk.inj (List.mem_singleton.mp h)).1
      exact List.mem_append_left _ (List.mem_map.mpr ⟨(a.type, index), mem_of_lookup hindex, hslot.symm⟩)
    · simp at h
  · obtain ⟨⟨⟨ty, path⟩, index⟩, hmem, h⟩ := List.mem_filterMap.mp h
    have hslot : slot = index.slot := by
      dsimp only at h
      split at h
      · obtain ⟨part, -, hpair⟩ := Option.map_eq_some_iff.mp h
        exact (Prod.mk.inj hpair).1.symm
      · simp at h
    exact List.mem_append_right _ (List.mem_map.mpr ⟨_, hmem, hslot.symm⟩)

/-- What comes into use is a new slot. -/
private theorem mem_slots_step (hstep : Step s s') {slot : Nat} (hmem : slot ∈ s'.slots) :
    slot ∈ s.slots ∨ (slot = s.contents.size ∧ s'.contents.size = s.contents.size + 1) := by
  cases hstep with
  | insert | describe | setKinds => exact .inl hmem
  | indexValues ty index hslot =>
    rcases List.mem_cons.mp hmem with hnew | hmem
    · exact .inr ⟨hnew.trans hslot, Array.size_push ..⟩
    · exact .inl hmem
  | indexParts ty path index hslot htype =>
    rcases List.mem_append.mp hmem with hmem | hmem
    · exact .inl (List.mem_append_left _ hmem)
    · rcases List.mem_cons.mp hmem with hnew | hmem
      · exact .inr ⟨hnew.trans hslot, Array.size_push ..⟩
      · obtain ⟨entry, hentry, rfl⟩ := List.mem_map.mp hmem
        exact .inl (List.mem_append_right _ (List.mem_map.mpr ⟨entry, (List.mem_filter.mp hentry).1, rfl⟩))

private theorem size_contents_step (hstep : Step s s') : s.contents.size ≤ s'.contents.size := by
  cases hstep with
  | insert => exact Nat.le_of_eq size_enter.symm
  | describe | setKinds => exact Nat.le_refl _
  | indexValues | indexParts =>
    exact Nat.le_of_lt (Nat.lt_of_lt_of_eq (Nat.lt_succ_self _) (Array.size_push ..).symm)

/-- Every index in use has a slot of its own. -/
structure SlotsApart (s : Store) : Prop where
  nodup : s.slots.Nodup
  lt : ∀ slot ∈ s.slots, slot < s.contents.size

private theorem SlotsApart.step (hstep : Step s s') (h : s.SlotsApart) : s'.SlotsApart := by
  have hfresh : s.contents.size ∉ s.slots := fun hmem => Nat.lt_irrefl _ (h.lt _ hmem)
  constructor
  case lt =>
    intro slot hmem
    rcases mem_slots_step hstep hmem with hold | ⟨rfl, hgrown⟩
    · exact Nat.lt_of_lt_of_le (h.lt slot hold) (size_contents_step hstep)
    · exact hgrown ▸ Nat.lt_succ_self _
  case nodup =>
    cases hstep with
    | insert | describe | setKinds => exact h.nodup
    | indexValues ty index hslot =>
      refine List.nodup_cons.mpr ⟨?_, h.nodup⟩
      show index.slot ∉ s.slots
      rw [hslot]
      exact hfresh
    | indexParts ty path index hslot htype =>
      let kept := (s.partIndexes.filter fun entry => entry.1 != (ty, path)).map fun entry => entry.2.slot
      have hkept : (s.valueIndexes.map (fun entry => entry.2.slot) ++ kept).Sublist s.slots :=
        (List.Sublist.refl _).append (List.filter_sublist.map _)
      have hnew : index.slot ∉ s.valueIndexes.map (fun entry => entry.2.slot) ++ kept := by
        rw [hslot]
        exact fun hmem => hfresh (hkept.subset hmem)
      exact (List.perm_middle.nodup_iff).mpr (List.nodup_cons.mpr ⟨hnew, h.nodup.sublist hkept⟩)

theorem Reachable.slotsApart (h : s.Reachable) : s.SlotsApart :=
  h.step_induction (fun _ _ => SlotsApart.step) ⟨List.nodup_nil, by simp [slots, blank]⟩

/-! ### Retired slots -/

/-- A slot that was in use and is no longer. -/
structure Retired (s : Store) (slot : Nat) : Prop where
  lt : slot < s.contents.size
  unused : slot ∉ s.slots

private theorem getD_enter_of_not_mem {id : AtomId} {contents : Array (Postings Value)} {entries : List (Nat × Value)}
    {slot : Nat} (hslot : slot < contents.size) (hnot : ∀ key, (slot, key) ∉ entries) :
    (enter id contents entries).getD slot .empty = contents.getD slot .empty := by
  induction entries generalizing contents with
  | nil => rfl
  | cons e rest ih =>
    obtain ⟨slot', key⟩ := e
    have hne : slot' ≠ slot := fun heq => hnot key (heq ▸ List.mem_cons_self)
    have hrest := @ih (contents.modify slot' fun entries => entries.insert key id) (by rwa [Array.size_modify])
      fun key hmem => hnot key (List.mem_cons_of_mem _ hmem)
    rw [getD_modify hslot, if_neg hne] at hrest
    exact hrest

/-- A retired slot stays so, and nothing is written to it. -/
theorem Step.retired (hstep : Step s s') {slot : Nat} (h : s.Retired slot) :
    s'.Retired slot ∧ s'.slotEntries slot = s.slotEntries slot := by
  have hretired : s'.Retired slot := by
    refine ⟨Nat.lt_of_lt_of_le h.lt (size_contents_step hstep), fun hmem => ?_⟩
    rcases mem_slots_step hstep hmem with hold | ⟨hnew, -⟩
    · exact h.unused hold
    · exact Nat.ne_of_lt h.lt hnew
  refine ⟨hretired, ?_⟩
  cases hstep with
  | insert => exact getD_enter_of_not_mem h.lt fun key hmem => h.unused (mem_slots_of_mem_indexEntries hmem)
  | describe | setKinds => rfl
  | indexValues | indexParts => exact slotEntries_push h.lt

theorem retired_attempts {slot : Nat} (h : s.Retired slot) (changes : List Change) :
    (changes.foldl attempt s).Retired slot ∧ (changes.foldl attempt s).slotEntries slot = s.slotEntries slot := by
  refine foldl_attempt_induction
    (motive := fun t => t.Retired slot ∧ t.slotEntries slot = s.slotEntries slot) (fun t t' hstep ht => ?_) ⟨h, rfl⟩ changes
  obtain ⟨hretired, hentries⟩ := hstep.retired ht.1
  exact ⟨hretired, hentries.trans ht.2⟩

/-- The slot of the index over the parts at a path is retired by creating the index once more. -/
theorem retired_createPartIndex (h : s.Reachable) (hindex : s.partIndex? ty path = some index) {ordered : Bool}
    (hs : s.createPartIndex ty path ordered = .ok s') :
    s'.Retired index.slot ∧ s'.slotEntries index.slot = s.slotEntries index.slot := by
  have hentry : ((ty, path), index) ∈ s.partIndexes := mem_of_lookup hindex
  have hmem : index.slot ∈ s.partIndexes.map fun entry => entry.2.slot := List.mem_map.mpr ⟨_, hentry, rfl⟩
  have hlt : index.slot < s.contents.size := h.slotsApart.lt _ (List.mem_append_right _ hmem)
  obtain ⟨hvalues, hparts, hapart⟩ := List.nodup_append.mp h.slotsApart.nodup
  obtain ⟨d, -, hs⟩ := bind_eq_ok_iff.mp hs
  cases hs
  refine ⟨⟨Nat.lt_of_lt_of_eq (Nat.lt_succ_of_lt hlt) (Array.size_push ..).symm, fun hused => ?_⟩,
    slotEntries_push hlt⟩
  rcases List.mem_append.mp hused with hvalue | hpart
  · exact hapart _ hvalue _ hmem rfl
  · rcases List.mem_cons.mp hpart with hnew | hold
    · exact Nat.ne_of_lt hlt hnew
    · obtain ⟨entry, hentry', hslot⟩ := List.mem_map.mp hold
      obtain ⟨hentry', hother⟩ := List.mem_filter.mp hentry'
      -- the entry kept has the slot of the one replaced, so it is that one
      have heq : entry = ((ty, path), index) := List.inj_on_of_nodup_map hparts hentry' hentry hslot
      simp [heq] at hother

/-! ### Which index is in use -/

/-- What an operation does to the indexes in use. -/
private theorem indexes_of_perform {change : Change} (hs : s.perform change = .ok s') :
    (s'.valueIndexes = s.valueIndexes ∨ ∃ index, s'.valueIndexes = (s.nextId, index) :: s.valueIndexes) ∧
    (s'.partIndexes = s.partIndexes ∨ ∃ ty path ordered index, change = .createPartIndex ty path ordered ∧
      s'.partIndexes = ((ty, path), index) :: s.partIndexes.filter fun entry => entry.1 != (ty, path)) := by
  have hlink : ∀ {ty targets value id}, s.addLink ty targets value = .ok (id, s') →
      s'.valueIndexes = s.valueIndexes ∧ s'.partIndexes = s.partIndexes := by
    intro ty targets value id hs
    obtain ⟨_, -, hs⟩ := bind_eq_ok_iff.mp hs
    obtain ⟨_, -, hs⟩ := bind_eq_ok_iff.mp hs
    cases hs
    exact ⟨rfl, rfl⟩
  cases change with
  | defineType name search dimensions =>
    obtain ⟨id, hs⟩ := ok_of_snd hs
    unfold Store.defineType at hs
    split at hs
    · simp at hs
    · cases search with
      | none =>
        cases hs
        exact ⟨.inl rfl, .inl rfl⟩
      | point | ordered =>
        cases hs
        exact ⟨.inr ⟨_, rfl⟩, .inl rfl⟩
  | mapValueType kind ty =>
    obtain ⟨_, -, hs⟩ := bind_eq_ok_iff.mp hs
    cases hs
    exact ⟨.inl rfl, .inl rfl⟩
  | createPartIndex ty path ordered =>
    obtain ⟨_, -, hs⟩ := bind_eq_ok_iff.mp hs
    cases hs
    exact ⟨.inl rfl, .inr ⟨ty, path, ordered, _, rfl, rfl⟩⟩
  | addAtom ty value =>
    obtain ⟨id, hs⟩ := ok_of_snd hs
    exact ⟨.inl (hlink hs).1, .inl (hlink hs).2⟩
  | addLink ty targets value =>
    obtain ⟨id, hs⟩ := ok_of_snd hs
    exact ⟨.inl (hlink hs).1, .inl (hlink hs).2⟩
  | declareSubtype general specific =>
    obtain ⟨id, hs⟩ := ok_of_snd hs
    obtain ⟨_, -, hs⟩ := bind_eq_ok_iff.mp hs
    obtain ⟨_, -, hs⟩ := bind_eq_ok_iff.mp hs
    exact ⟨.inl (hlink hs).1, .inl (hlink hs).2⟩

private theorem valueIndex?_attempt (h : s.Reachable) (hindex : s.valueIndex? ty = some index) (change : Change) :
    (s.attempt change).valueIndex? ty = some index := by
  unfold attempt
  split
  · rename_i t hs
    rcases (indexes_of_perform hs).1 with hsame | ⟨new, hnew⟩
    · rwa [valueIndex?, hsame]
    · -- the type of the new index is new itself
      have hne : ty ≠ s.nextId := Nat.ne_of_lt (h.consistent.1.valueIndexed ty index (mem_of_lookup hindex)).1
      rw [valueIndex?, hnew, List.lookup_cons, beq_eq_false_iff_ne.mpr hne]
      exact hindex
  · exact hindex

/-- The index over the values of a type stays in use. -/
theorem valueIndex?_attempts (h : s.Reachable) (hindex : s.valueIndex? ty = some index) (changes : List Change) :
    (changes.foldl attempt s).valueIndex? ty = some index := by
  induction changes generalizing s with
  | nil => exact hindex
  | cons change rest ih => exact ih (h.attempt change) (valueIndex?_attempt h hindex change)

private theorem lookup_filter_ne {α β : Type} [BEq α] [LawfulBEq α] {k l : α} (hne : k ≠ l) (entries : List (α × β)) :
    (entries.filter fun entry => entry.1 != l).lookup k = entries.lookup k := by
  induction entries with
  | nil => rfl
  | cons entry rest ih =>
    obtain ⟨m, v⟩ := entry
    by_cases hm : m = l
    · have hkm : k ≠ m := hm ▸ hne
      rw [List.filter_cons_of_neg (by simp [hm]), ih, List.lookup_cons, beq_eq_false_iff_ne.mpr hkm]
    · rw [List.filter_cons_of_pos (by simp [hm]), List.lookup_cons, List.lookup_cons, ih]

/-- Only creating it once more replaces the index over the parts at a path. -/
theorem partIndex?_attempt {change : Change} (hother : ∀ ordered, change ≠ .createPartIndex ty path ordered) :
    (s.attempt change).partIndex? ty path = s.partIndex? ty path := by
  unfold attempt
  split
  · rename_i t hs
    rcases (indexes_of_perform hs).2 with hsame | ⟨ty', path', ordered, new, rfl, hnew⟩
    · rw [partIndex?, hsame, partIndex?]
    · have hne : (ty, path) ≠ (ty', path') := by
        intro heq
        cases heq
        exact hother ordered rfl
      rw [partIndex?, hnew, List.lookup_cons, beq_eq_false_iff_ne.mpr hne]
      exact lookup_filter_ne hne s.partIndexes
  · rfl

/-- What has an index over its parts is a type, so that the index can be created once more. -/
theorem Reachable.exists_createPartIndex (h : s.Reachable) (hindex : s.partIndex? ty path = some index)
    (ordered : Bool) : ∃ s', s.createPartIndex ty path ordered = .ok s' := by
  have hdescribed : ∀ entry ∈ s.partIndexes, ∃ d ∈ s.types, d.handle = entry.1.1 := by
    refine h.step_induction (motive := fun s => ∀ entry ∈ s.partIndexes, ∃ d ∈ s.types, d.handle = entry.1.1)
      (fun t t' hstep ht => ?_) (by simp [blank])
    cases hstep with
    | insert | setKinds | indexValues => exact ht
    | describe =>
      intro entry hentry
      obtain ⟨d, hd, hhandle⟩ := ht entry hentry
      exact ⟨d, List.mem_append_left _ hd, hhandle⟩
    | indexParts ty path index hslot htype =>
      intro entry hentry
      rcases List.mem_cons.mp hentry with rfl | hold
      · exact htype
      · exact ht entry (List.mem_filter.mp hold).1
  obtain ⟨d, hd, hhandle⟩ := hdescribed _ (mem_of_lookup hindex)
  obtain ⟨d', hd'⟩ := exists_descriptor_of_type hd
  rw [hhandle] at hd'
  unfold Store.createPartIndex
  rw [hd']
  exact ⟨_, rfl⟩

/-! ### References over time -/

/-- After any operations the index over the parts at a path is in use as before, or there is a first operation that
replaced it and since which its slot has not been written to. -/
private theorem partIndex_attempts (h : s.Reachable) (hindex : s.partIndex? ty path = some index)
    (changes : List Change) :
    ((∀ ordered, .createPartIndex ty path ordered ∉ changes) ∧
      (changes.foldl attempt s).partIndex? ty path = some index) ∨
    ∃ earlier ordered later, changes = earlier ++ .createPartIndex ty path ordered :: later ∧
      (∀ ordered, .createPartIndex ty path ordered ∉ earlier) ∧
      (earlier.foldl attempt s).partIndex? ty path = some index ∧
      (changes.foldl attempt s).slotEntries index.slot = (earlier.foldl attempt s).slotEntries index.slot := by
  induction changes generalizing s with
  | nil => exact .inl ⟨by simp, hindex⟩
  | cons change rest ih =>
    by_cases hchange : ∃ ordered, change = .createPartIndex ty path ordered
    · obtain ⟨ordered, rfl⟩ := hchange
      obtain ⟨t, hs⟩ := h.exists_createPartIndex hindex ordered
      have hattempt : s.attempt (.createPartIndex ty path ordered) = t := attempt_of_ok hs
      obtain ⟨hretired, hentries⟩ := retired_createPartIndex h hindex hs
      have hfrozen := (retired_attempts hretired rest).2
      refine .inr ⟨[], ordered, rest, rfl, by simp, hindex, ?_⟩
      rw [List.foldl_cons, hattempt]
      exact hfrozen.trans hentries
    · have hother : ∀ ordered, change ≠ .createPartIndex ty path ordered := fun ordered heq => hchange ⟨ordered, heq⟩
      have hsame : (s.attempt change).partIndex? ty path = some index := (partIndex?_attempt hother).trans hindex
      rcases ih (h.attempt change) hsame with ⟨hnone, hcurrent⟩ | ⟨earlier, ordered, later, rfl, hnone, hthen, hentries⟩
      · refine .inl ⟨fun ordered hmem => ?_, hcurrent⟩
        rcases List.mem_cons.mp hmem with heq | hmem
        · exact hother ordered heq.symm
        · exact hnone ordered hmem
      · refine .inr ⟨change :: earlier, ordered, later, rfl, fun ordered hmem => ?_, hthen, hentries⟩
        rcases List.mem_cons.mp hmem with heq | hmem
        · exact hother ordered heq.symm
        · exact hnone ordered hmem

private theorem exists_append_of_first {α : Type} {p : α → Prop} {earlier later earlier' later' : List α} {x y : α}
    (heq : earlier ++ x :: later = earlier' ++ y :: later') (hnone : ∀ z ∈ earlier, ¬ p z) (hy : p y) :
    ∃ between, earlier' = earlier ++ between := by
  rcases List.append_eq_append_iff.mp heq with ⟨between, hlonger, -⟩ | ⟨between, hshorter, hrest⟩
  · exact ⟨between, hlonger⟩
  · cases between with
    | nil => exact ⟨[], by simpa using hshorter.symm⟩
    | cons z rest =>
      have hz : y = z := (List.cons.inj hrest).1
      exact absurd (hz ▸ hy) (hnone z (hshorter ▸ by simp))

/-- Whatever operations were tried before and after references were taken, and whether or not they succeeded: a reference
to the index over the values of a type is live, and one to the index over the parts at a path is live exactly if every
atom with such a part had been stored each time that the index was created anew. -/
theorem live_handles_iff (before after : List Change) :
    let s := afterChanges before
    let s' := after.foldl attempt s
    (∀ ty index, s.valueIndex? ty = some index → index.Live s' (wholeKey ty)) ∧
    ∀ ty path index, s.partIndex? ty path = some index →
      (index.Live s' (partKey ty path) ↔
        ∀ earlier ordered later, after = earlier ++ .createPartIndex ty path ordered :: later →
          ∀ id a, s'.atom? id = some a → (partKey ty path a).isSome = true →
            ∃ b, (earlier.foldl attempt s).atom? id = some b) := by
  intro s s'
  have h : s.Reachable := reachable_afterChanges before
  have h' : s'.Reachable := h.attempts after
  refine ⟨fun ty index hindex => ?_, fun ty path index hindex => ?_⟩
  · have hcurrent : s'.valueIndex? ty = some index := valueIndex?_attempts h hindex after
    exact live_of_usedSlots h' (mem_usedSlots_valueIndex hcurrent)
      (h'.consistent.1.valueIndexed ty index (mem_of_lookup hcurrent)).2.1
  · rcases partIndex_attempts h hindex after with ⟨hnone, hcurrent⟩ | ⟨earlier, ordered, later, hafter, hnone, hthen, hkept⟩
    · refine iff_of_true ?_ fun earlier ordered later hafter => ?_
      · exact live_of_usedSlots h' (mem_usedSlots_partIndex hcurrent)
          (h'.consistent.1.partIndexed _ index (mem_of_lookup hcurrent))
      · exact absurd (by rw [hafter]; simp) (hnone ordered)
    · let t := earlier.foldl attempt s
      have ht : t.Reachable := h.attempts earlier
      have hused : (index.slot, partKey ty path) ∈ t.usedSlots := mem_usedSlots_partIndex hthen
      have hentries : index.entries s' = t.slotEntries index.slot := hkept
      have hhas := ht.consistent.1.slot_entries _ _ hused
      have hasc := ht.consistent.1.slot_ascending _ _ hused
      rw [← hentries] at hhas hasc
      have hstored : ∀ {id a}, t.atom? id = some a → s'.atom? id = some a := by
        intro id a ha
        have hrest : s' = (.createPartIndex ty path ordered :: later).foldl attempt t := by
          rw [← List.foldl_append, ← hafter]
        rw [hrest]
        exact atom?_attempts ha _
      constructor
      · intro hlive earlier' ordered' later' hafter' id a ha hkey
        obtain ⟨v, hv⟩ := Option.isSome_iff_exists.mp hkey
        obtain ⟨w, hw⟩ := has_of_live hlive hasc ha hv
        obtain ⟨b, hb, -⟩ := (hhas w id).mp hw
        -- the index was first replaced before any other time
        obtain ⟨between, rfl⟩ := exists_append_of_first (p := fun change => ∃ ordered, change = .createPartIndex ty path ordered)
          (hafter.symm.trans hafter') (fun change hmem ⟨ordered, heq⟩ => hnone ordered (heq ▸ hmem)) ⟨ordered', rfl⟩
        rw [List.foldl_append]
        exact ⟨b, atom?_attempts hb between⟩
      · intro hall
        have hids := ht.setsAscending.slot _ (ht.consistent.1.slot_lt _ _ hused)
        rw [← hentries] at hids
        refine live_of_entries h'.consistent.1 (ht.consistent.1.partIndexed _ index (mem_of_lookup hthen)) hasc hids
          fun v id => (hhas v id).trans ⟨fun ⟨a, ha, hkey⟩ => ⟨a, hstored ha, hkey⟩, fun ⟨a, ha, hkey⟩ => ?_⟩
        obtain ⟨b, hb⟩ := hall earlier ordered later hafter id a ha (by rw [hkey]; rfl)
        have hsame : a = b := Option.some.inj (ha.symm.trans (hstored hb))
        exact ⟨a, hsame ▸ hb, hkey⟩

/-- An index over values, which stays, and one over parts, which is created once more. -/
theorem live_handles_iff_replaced :
    let before : List Change := [.defineType "Point" .point [], .createPartIndex 3 "x" true]
    let after : List Change := [.createPartIndex 3 "x" false, .addAtom 3 (.record [("x", .int 5)])]
    let s := afterChanges before
    let s' := after.foldl attempt s
    ∃ values parts, s.valueIndex? 3 = some values ∧ s.partIndex? 3 "x" = some parts ∧ values.Live s' (wholeKey 3) ∧
      (parts.Live s' (partKey 3 "x") ↔
        ∀ earlier ordered later, after = earlier ++ .createPartIndex 3 "x" ordered :: later →
          ∀ id a, s'.atom? id = some a → (partKey 3 "x" a).isSome = true →
            ∃ b, (earlier.foldl attempt s).atom? id = some b) := by
  intro before after s s'
  obtain ⟨hvalues, hparts⟩ := live_handles_iff before after
  exact ⟨_, _, rfl, rfl, hvalues 3 _ rfl, hparts 3 "x" _ rfl⟩

/-- An atom that is stored after its index has been created once more is not found through a reference to the old one. -/
theorem exists_stale_handle :
    ¬ ∀ (before after : List Change) (ty : AtomId) (path : String) (index : IndexHandle),
      (afterChanges before).partIndex? ty path = some index →
        index.Live (after.foldl attempt (afterChanges before)) (partKey ty path) := by
  intro hall
  let before : List Change := [.defineType "Point" .none [], .createPartIndex 3 "x" true]
  let after : List Change := [.createPartIndex 3 "x" true, .addAtom 3 (.record [("x", .int 5)])]
  let index : IndexHandle := ⟨0, "Point.x", .ranged, none⟩
  have hlive := hall before after 3 "x" index (by decide +kernel)
  obtain ⟨ids, hfound, -, hmem⟩ := hlive.find (.int 5)
  have hnothing : (index.find (after.foldl attempt (afterChanges before)) (.int 5) >>= Snapshot.drained).answer = .ok [] := by
    decide +kernel
  have hids : ids = [] := Except.ok.inj (hfound.symm.trans hnothing)
  have hfive : 4 ∈ ids :=
    (hmem 4).mpr ⟨⟨4, 3, .record [("x", .int 5)], []⟩, rfl, .int 5, rfl, Value.satisfies_eq_iff.mpr (.inl rfl)⟩
  simp [hids] at hfive

end Store

end HyperQuery
