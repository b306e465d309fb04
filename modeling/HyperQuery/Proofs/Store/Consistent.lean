import HyperQuery.Proofs.Metered
import HyperQuery.Proofs.Store.Index
import HyperQuery.Proofs.Store.Reachable

/-!
# Everything the store keeps agrees with its atoms

A store is consistent (`Store.Consistent`) if the tables beside the atoms say the same as the atoms: the atoms of a
type, the links that point at an atom, and the entries of every index in use. Storing an atom under the next handle
keeps a store consistent (`Consistent.insert`), and so does adding a slot with the right entries
(`Consistent.pushSlot`); with new descriptors of types these are all the changes that public operations make, so
reachable stores are consistent (`Reachable.consistent`).
-/

namespace HyperQuery

namespace Store

variable {s : Store}

/-! ### The keys of an index -/

/-- The key of an atom in the index over the values of a type. -/
def wholeKey (ty : AtomId) (a : Atom) : Option Value := if a.type = ty then some a.value else none

/-- The key of an atom in the index over the parts of the values of a type. -/
def partKey (ty : AtomId) (path : String) (a : Atom) : Option Value :=
  if a.type = ty then a.value.project path else none

/-- The slots in use, with the keys that atoms have in them. -/
def usedSlots (s : Store) : List (Nat × (Atom → Option Value)) :=
  s.valueIndexes.map (fun (ty, h) => (h.slot, wholeKey ty)) ++
    s.partIndexes.map fun ((ty, path), h) => (h.slot, partKey ty path)

/-- The entries of a slot. -/
def slotEntries (s : Store) (slot : Nat) : Postings Value := s.contents.getD slot .empty

/-- The tables of the store agree with its atoms. -/
structure Consistent (s : Store) : Prop where
  id_eq : ∀ {id a}, s.atom? id = some a → a.id = id
  type_lt : ∀ {id a}, s.atom? id = some a → a.type < s.nextId
  targets : ∀ {id a}, s.atom? id = some a → ∀ t ∈ a.targets, ∃ b, s.atom? t = some b
  handle_lt : ∀ d ∈ s.types, d.handle < s.nextId
  byType_ascending : s.byType.Ascending
  byType : ∀ ty id, s.byType.Has ty id ↔ ∃ a, s.atom? id = some a ∧ a.type = ty
  incidence_ascending : s.incidence.Ascending
  incidence : ∀ x id, s.incidence.Has x id ↔ ∃ a, s.atom? id = some a ∧ x ∈ a.targets
  slot_key : ∀ slot key key', (slot, key) ∈ s.usedSlots → (slot, key') ∈ s.usedSlots → key = key'
  slot_lt : ∀ slot key, (slot, key) ∈ s.usedSlots → slot < s.contents.size
  slot_ascending : ∀ slot key, (slot, key) ∈ s.usedSlots → (s.slotEntries slot).Ascending
  slot_entries : ∀ slot key, (slot, key) ∈ s.usedSlots →
    ∀ v id, (s.slotEntries slot).Has v id ↔ ∃ a, s.atom? id = some a ∧ key a = some v
  valueIndexed : ∀ ty h, (ty, h) ∈ s.valueIndexes → ty < s.nextId ∧ h.view = none ∧ h.kind ≠ .hashed
  valueTypes_nodup : (s.valueIndexes.map Prod.fst).Nodup
  partIndexed : ∀ key h, (key, h) ∈ s.partIndexes → h.view = none

/-! ### Storing an atom -/

/-- The atom of handle `n + 1` is at position `n`. -/
theorem atom?_succ (s : Store) (n : Nat) : s.atom? (n + 1) = s.atoms[n]? := by
  unfold atom?
  rw [if_neg (Nat.succ_ne_zero n), Nat.add_sub_cancel]

theorem atom?_zero (s : Store) : s.atom? 0 = none := rfl

theorem atom?_insert {a : Atom} {id : AtomId} :
    (s.insert a).atom? id = if id = s.nextId then some a else s.atom? id := by
  cases id with
  | zero => rfl
  | succ n =>
    rw [atom?_succ, atom?_succ]
    show (s.atoms.push a)[n]? = _
    rw [Array.getElem?_push]
    unfold nextId
    by_cases h : n = s.atoms.size
    · rw [if_pos h, if_pos (by rw [h])]
    · rw [if_neg h, if_neg (fun h' => h (Nat.succ_inj.mp h'))]

theorem atom?_of_atom {id : AtomId} {a : Atom} (h : s.atom id = .ok a) : s.atom? id = some a := by
  unfold atom at h
  split at h
  · cases h
    assumption
  · simp at h

theorem lt_nextId_of_atom? {id : AtomId} {a : Atom} (h : s.atom? id = some a) : id < s.nextId := by
  cases id with
  | zero => exact Nat.succ_pos _
  | succ n =>
    rw [atom?_succ] at h
    exact Nat.succ_lt_succ (Array.getElem?_eq_some_iff.mp h).1

private theorem has_incidence_foldl {targets : List AtomId} {table : Postings AtomId} {id x y : AtomId} :
    (targets.foldl (fun table target => table.insert target id) table).Has x y ↔
      table.Has x y ∨ (x ∈ targets ∧ y = id) := by
  induction targets generalizing table with
  | nil => simp
  | cons t rest ih =>
    rw [List.foldl_cons, ih, Postings.has_insert, or_assoc, List.mem_cons]
    constructor
    · rintro (h | ⟨rfl, rfl⟩ | ⟨h, rfl⟩)
      · exact .inl h
      · exact .inr ⟨.inl rfl, rfl⟩
      · exact .inr ⟨.inr h, rfl⟩
    · rintro (h | ⟨rfl | h, rfl⟩)
      · exact .inl h
      · exact .inr (.inl ⟨rfl, rfl⟩)
      · exact .inr (.inr ⟨h, rfl⟩)

private theorem ascending_incidence_foldl {targets : List AtomId} {table : Postings AtomId} {id : AtomId}
    (h : table.Ascending) : (targets.foldl (fun table target => table.insert target id) table).Ascending := by
  induction targets generalizing table with
  | nil => exact h
  | cons t rest ih => exact ih (Postings.ascending_insert h)

/-- The contents of the indexes after adding a handle under several keys. -/
def enter (id : AtomId) (contents : Array (Postings Value)) (entries : List (Nat × Value)) : Array (Postings Value) :=
  entries.foldl (fun contents (slot, key) => contents.modify slot fun entries => entries.insert key id) contents

theorem size_enter {id : AtomId} {contents : Array (Postings Value)} {entries : List (Nat × Value)} :
    (enter id contents entries).size = contents.size := by
  induction entries generalizing contents with
  | nil => rfl
  | cons e rest ih => exact ih.trans (Array.size_modify ..)

theorem getD_modify {contents : Array (Postings Value)} {slot j : Nat} {f : Postings Value → Postings Value}
    (hj : j < contents.size) :
    (contents.modify slot f).getD j .empty =
      if slot = j then f (contents.getD j .empty) else contents.getD j .empty := by
  simp only [Array.getD_eq_getD_getElem?, Array.getElem?_modify]
  split
  · rw [Array.getElem?_eq_getElem hj]
    rfl
  · rfl

theorem has_enter {id x : AtomId} {v : Value} {contents : Array (Postings Value)} {entries : List (Nat × Value)}
    {slot : Nat} (hslot : slot < contents.size) :
    ((enter id contents entries).getD slot .empty).Has v x ↔
      (contents.getD slot .empty).Has v x ∨ ((slot, v) ∈ entries ∧ x = id) := by
  induction entries generalizing contents with
  | nil => simp [enter]
  | cons e rest ih =>
    obtain ⟨slot', key⟩ := e
    have hstep : enter id contents ((slot', key) :: rest) =
        enter id (contents.modify slot' fun entries => entries.insert key id) rest := rfl
    rw [hstep, ih (by rwa [Array.size_modify]), getD_modify hslot]
    by_cases h : slot' = slot
    · rw [if_pos h, Postings.has_insert, or_assoc]
      subst h
      simp only [List.mem_cons, Prod.mk.injEq, true_and]
      constructor
      · rintro (h | ⟨rfl, rfl⟩ | ⟨h, rfl⟩)
        · exact .inl h
        · exact .inr ⟨.inl rfl, rfl⟩
        · exact .inr ⟨.inr h, rfl⟩
      · rintro (h | ⟨rfl | h, rfl⟩)
        · exact .inl h
        · exact .inr (.inl ⟨rfl, rfl⟩)
        · exact .inr (.inr ⟨h, rfl⟩)
    · rw [if_neg h]
      simp [Ne.symm h]

theorem ascending_enter {id : AtomId} {contents : Array (Postings Value)} {entries : List (Nat × Value)} {slot : Nat}
    (hslot : slot < contents.size) (h : (contents.getD slot .empty).Ascending) :
    ((enter id contents entries).getD slot .empty).Ascending := by
  induction entries generalizing contents with
  | nil => exact h
  | cons e rest ih =>
    obtain ⟨slot', key⟩ := e
    change ((enter id (contents.modify slot' fun entries => entries.insert key id) rest).getD slot .empty).Ascending
    refine ih (by rwa [Array.size_modify]) ?_
    rw [getD_modify hslot]
    by_cases hs : slot' = slot
    · rw [if_pos hs]
      exact Postings.ascending_insert h
    · rw [if_neg hs]
      exact h

/-! ### Entries of an atom -/

theorem mem_of_lookup {α β : Type} [BEq α] [LawfulBEq α] {k : α} {v : β} {entries : List (α × β)}
    (h : entries.lookup k = some v) : (k, v) ∈ entries := by
  induction entries with
  | nil => simp at h
  | cons e rest ih =>
    obtain ⟨l, w⟩ := e
    rw [List.lookup_cons] at h
    split at h
    · rename_i hk
      cases h
      rw [beq_iff_eq.mp hk]
      simp
    · exact List.mem_cons_of_mem _ (ih h)

theorem lookup_of_mem {α β : Type} [BEq α] [LawfulBEq α] {k : α} {v : β} {entries : List (α × β)}
    (hnodup : (entries.map Prod.fst).Nodup) (h : (k, v) ∈ entries) : entries.lookup k = some v := by
  induction entries with
  | nil => simp at h
  | cons e rest ih =>
    obtain ⟨l, w⟩ := e
    obtain ⟨hl, hrest⟩ := List.nodup_cons.mp hnodup
    rw [List.lookup_cons]
    rcases List.mem_cons.mp h with heq | hmem
    · cases heq
      simp
    · have hne : k ≠ l := by
        rintro rfl
        exact hl (List.mem_map.mpr ⟨_, hmem, rfl⟩)
      rw [beq_eq_false_iff_ne.mpr hne]
      exact ih hrest hmem

private theorem indexEntries_eq {a : Atom} :
    s.indexEntries a = ((s.valueIndex? a.type).toList.map fun h => (h.slot, a.value)) ++
      s.partIndexes.filterMap fun e =>
        if e.1.1 = a.type then (a.value.project e.1.2).map fun part => (e.2.slot, part) else none := by
  unfold indexEntries
  rcases s.valueIndex? a.type with _ | h <;> rfl

private theorem mem_wholeEntries (hnodup : (s.valueIndexes.map Prod.fst).Nodup) {a : Atom} {slot : Nat} {v : Value} :
    (slot, v) ∈ ((s.valueIndex? a.type).toList.map fun h => (h.slot, a.value)) ↔
      ∃ ty h, (ty, h) ∈ s.valueIndexes ∧ h.slot = slot ∧ wholeKey ty a = some v := by
  simp only [List.mem_map, Option.mem_toList, Prod.mk.injEq]
  constructor
  · rintro ⟨h, hlookup, rfl, rfl⟩
    exact ⟨a.type, h, mem_of_lookup hlookup, rfl, if_pos rfl⟩
  · rintro ⟨ty, h, hmem, rfl, hkey⟩
    unfold wholeKey at hkey
    split at hkey
    · rename_i hty
      cases hkey
      exact ⟨h, lookup_of_mem hnodup (hty ▸ hmem), rfl, rfl⟩
    · simp at hkey

private theorem mem_partEntries {a : Atom} {slot : Nat} {v : Value} :
    (slot, v) ∈ (s.partIndexes.filterMap fun e =>
      if e.1.1 = a.type then (a.value.project e.1.2).map fun part => (e.2.slot, part) else none) ↔
      ∃ ty path h, ((ty, path), h) ∈ s.partIndexes ∧ h.slot = slot ∧ partKey ty path a = some v := by
  simp only [List.mem_filterMap, Prod.exists]
  constructor
  · rintro ⟨ty, path, h, hmem, hentry⟩
    split at hentry
    · rename_i hty
      obtain ⟨part, hpart, hentry⟩ := Option.map_eq_some_iff.mp hentry
      cases hentry
      exact ⟨ty, path, h, hmem, rfl, by rw [partKey, if_pos hty.symm, hpart]⟩
    · simp at hentry
  · rintro ⟨ty, path, h, hmem, rfl, hkey⟩
    unfold partKey at hkey
    split at hkey
    · rename_i hty
      exact ⟨ty, path, h, hmem, by rw [if_pos hty.symm, hkey]; rfl⟩
    · simp at hkey

/-- The entries of a new atom are its keys in the slots in use. -/
theorem mem_indexEntries (hnodup : (s.valueIndexes.map Prod.fst).Nodup) {a : Atom} {slot : Nat} {v : Value} :
    (slot, v) ∈ s.indexEntries a ↔ ∃ key, (slot, key) ∈ s.usedSlots ∧ key a = some v := by
  rw [indexEntries_eq, List.mem_append, mem_wholeEntries hnodup, mem_partEntries]
  unfold usedSlots
  simp only [List.mem_append, List.mem_map, Prod.exists, Prod.mk.injEq]
  constructor
  · rintro (⟨ty, h, hmem, hslot, hkey⟩ | ⟨ty, path, h, hmem, hslot, hkey⟩)
    · exact ⟨_, .inl ⟨ty, h, hmem, hslot, rfl⟩, hkey⟩
    · exact ⟨_, .inr ⟨ty, path, h, hmem, hslot, rfl⟩, hkey⟩
  · rintro ⟨key, ⟨ty, h, hmem, hslot, rfl⟩ | ⟨ty, path, h, hmem, hslot, rfl⟩, hkey⟩
    · exact .inl ⟨ty, h, hmem, hslot, hkey⟩
    · exact .inr ⟨ty, path, h, hmem, hslot, hkey⟩

/-! ### Storing keeps a store consistent -/

theorem nextId_insert {a : Atom} : (s.insert a).nextId = s.nextId + 1 := by
  show (s.atoms.push a).size + 1 = _
  rw [Array.size_push]
  rfl

section Insert

variable {a : Atom} (hid : a.id = s.nextId)

include hid

theorem atom?_insert_eq_some_iff {x : AtomId} {b : Atom} :
    (s.insert a).atom? x = some b ↔ s.atom? x = some b ∨ (x = a.id ∧ b = a) := by
  rw [atom?_insert, hid]
  constructor
  · intro hx
    split at hx
    · exact .inr ⟨by assumption, (Option.some.inj hx).symm⟩
    · exact .inl hx
  · rintro (hx | ⟨rfl, rfl⟩)
    · rw [if_neg (Nat.ne_of_lt (lt_nextId_of_atom? hx)), hx]
    · rw [if_pos rfl]

theorem exists_atom?_insert_iff {x : AtomId} {p : Atom → Prop} :
    (∃ b, (s.insert a).atom? x = some b ∧ p b) ↔ (∃ b, s.atom? x = some b ∧ p b) ∨ (p a ∧ x = a.id) := by
  simp only [atom?_insert_eq_some_iff hid]
  constructor
  · rintro ⟨b, hb | ⟨rfl, rfl⟩, hp⟩
    · exact .inl ⟨b, hb, hp⟩
    · exact .inr ⟨hp, rfl⟩
  · rintro (⟨b, hb, hp⟩ | ⟨hp, rfl⟩)
    · exact ⟨b, .inl hb, hp⟩
    · exact ⟨a, .inr ⟨rfl, rfl⟩, hp⟩

/-- An atom may be stored under the next handle if its targets are stored. -/
theorem Consistent.insert (h : s.Consistent) (htype : a.type ≤ s.nextId)
    (htargets : ∀ t ∈ a.targets, ∃ b, s.atom? t = some b) : (s.insert a).Consistent := by
  have hold : ∀ {x b}, s.atom? x = some b → (s.insert a).atom? x = some b := fun hx =>
    (atom?_insert_eq_some_iff hid).mpr (.inl hx)
  have hsize : (s.insert a).contents.size = s.contents.size := size_enter
  constructor
  case id_eq =>
    intro x b hb
    rcases (atom?_insert_eq_some_iff hid).mp hb with hb | ⟨rfl, rfl⟩
    · exact h.id_eq hb
    · rfl
  case type_lt =>
    intro x b hb
    rw [nextId_insert]
    rcases (atom?_insert_eq_some_iff hid).mp hb with hb | ⟨-, rfl⟩
    · exact Nat.lt_succ_of_lt (h.type_lt hb)
    · exact Nat.lt_succ_of_le htype
  case targets =>
    intro x b hb t ht
    rcases (atom?_insert_eq_some_iff hid).mp hb with hb | ⟨-, rfl⟩
    · obtain ⟨c, hc⟩ := h.targets hb t ht
      exact ⟨c, hold hc⟩
    · obtain ⟨c, hc⟩ := htargets t ht
      exact ⟨c, hold hc⟩
  case handle_lt =>
    intro d hd
    rw [nextId_insert]
    exact Nat.lt_succ_of_lt (h.handle_lt d hd)
  case byType_ascending => exact Postings.ascending_insert h.byType_ascending
  case byType =>
    intro ty x
    rw [exists_atom?_insert_iff hid, ← h.byType]
    refine Postings.has_insert.trans (or_congr_right (and_congr_left' ?_))
    exact eq_comm
  case incidence_ascending => exact ascending_incidence_foldl h.incidence_ascending
  case incidence =>
    intro t x
    rw [exists_atom?_insert_iff hid, ← h.incidence]
    exact has_incidence_foldl
  case slot_key => exact h.slot_key
  case slot_lt =>
    intro slot key hmem
    rw [hsize]
    exact h.slot_lt slot key hmem
  case slot_ascending =>
    intro slot key hmem
    exact ascending_enter (h.slot_lt slot key hmem) (h.slot_ascending slot key hmem)
  case slot_entries =>
    intro slot key hmem v x
    rw [exists_atom?_insert_iff hid, ← h.slot_entries slot key hmem]
    refine (has_enter (h.slot_lt slot key hmem)).trans (or_congr_right (and_congr_left' ?_))
    rw [mem_indexEntries h.valueTypes_nodup]
    -- a slot in use has one key, so the entry in it is the one of that key
    constructor
    · rintro ⟨key', hmem', hkey⟩
      rwa [h.slot_key slot key key' hmem hmem']
    · exact fun hkey => ⟨key, hmem, hkey⟩
  case valueIndexed =>
    intro ty index hmem
    obtain ⟨hty, hview, hkind⟩ := h.valueIndexed ty index hmem
    rw [nextId_insert]
    exact ⟨Nat.lt_succ_of_lt hty, hview, hkind⟩
  case valueTypes_nodup => exact h.valueTypes_nodup
  case partIndexed => exact h.partIndexed

end Insert

/-! ### Adding indexes -/

theorem slotEntries_push {entries : Postings Value} {slot : Nat} (hslot : slot < s.contents.size) :
    (s.contents.push entries).getD slot .empty = s.slotEntries slot := by
  unfold slotEntries
  rw [Array.getD_eq_getD_getElem?, Array.getD_eq_getD_getElem?, Array.getElem?_push, if_neg (Nat.ne_of_lt hslot)]

theorem slotEntries_push_self {entries : Postings Value} :
    (s.contents.push entries).getD s.contents.size .empty = entries := by
  rw [Array.getD_eq_getD_getElem?, Array.getElem?_push, if_pos rfl]
  rfl

/-- A further slot may come into use with the entries that atoms have in it. -/
theorem Consistent.pushSlot {s' : Store} {entries : Postings Value} (newKey : Atom → Option Value)
    (h : s.Consistent) (hatoms : s'.atoms = s.atoms) (hbyType : s'.byType = s.byType)
    (hincidence : s'.incidence = s.incidence) (htypes : s'.types = s.types)
    (hcontents : s'.contents = s.contents.push entries)
    (hused : ∀ slot key, (slot, key) ∈ s'.usedSlots →
      (slot = s.contents.size ∧ key = newKey) ∨ (slot, key) ∈ s.usedSlots)
    (hascending : entries.Ascending)
    (hentries : ∀ v id, entries.Has v id ↔ ∃ a, s.atom? id = some a ∧ newKey a = some v)
    (hvalue : ∀ ty h, (ty, h) ∈ s'.valueIndexes → ty < s.nextId ∧ h.view = none ∧ h.kind ≠ .hashed)
    (hvalueTypes : (s'.valueIndexes.map Prod.fst).Nodup)
    (hpart : ∀ key h, (key, h) ∈ s'.partIndexes → h.view = none) : s'.Consistent := by
  have hatom : ∀ id, s'.atom? id = s.atom? id := by
    intro id
    unfold atom?
    rw [hatoms]
  have hnext : s'.nextId = s.nextId := by
    unfold nextId
    rw [hatoms]
  have hslot : ∀ slot key, (slot, key) ∈ s'.usedSlots →
      (slot = s.contents.size ∧ key = newKey ∧ s'.slotEntries slot = entries) ∨
      ((slot, key) ∈ s.usedSlots ∧ slot < s.contents.size ∧ s'.slotEntries slot = s.slotEntries slot) := by
    intro slot key hmem
    rcases hused slot key hmem with ⟨rfl, rfl⟩ | hmem
    · refine .inl ⟨rfl, rfl, ?_⟩
      rw [slotEntries, hcontents, slotEntries_push_self]
    · refine .inr ⟨hmem, h.slot_lt slot key hmem, ?_⟩
      rw [slotEntries, hcontents, slotEntries_push (h.slot_lt slot key hmem)]
  constructor
  case id_eq =>
    intro id a ha
    rw [hatom] at ha
    exact h.id_eq ha
  case type_lt =>
    intro id a ha
    rw [hatom] at ha
    rw [hnext]
    exact h.type_lt ha
  case targets =>
    intro id a ha t ht
    rw [hatom] at ha
    rw [hatom]
    exact h.targets ha t ht
  case handle_lt =>
    rw [htypes, hnext]
    exact h.handle_lt
  case byType_ascending =>
    rw [hbyType]
    exact h.byType_ascending
  case byType =>
    intro ty id
    rw [hbyType, hatom]
    exact h.byType ty id
  case incidence_ascending =>
    rw [hincidence]
    exact h.incidence_ascending
  case incidence =>
    intro x id
    rw [hincidence, hatom]
    exact h.incidence x id
  case slot_key =>
    -- the new slot lies behind all slots that were in use
    intro slot key key' hmem hmem'
    rcases hslot slot key hmem with ⟨rfl, rfl, -⟩ | ⟨hmem, hlt, -⟩
    · rcases hslot _ key' hmem' with ⟨-, rfl, -⟩ | ⟨-, hlt, -⟩
      · rfl
      · exact absurd hlt (Nat.lt_irrefl _)
    · rcases hslot slot key' hmem' with ⟨rfl, -, -⟩ | ⟨hmem', -, -⟩
      · exact absurd hlt (Nat.lt_irrefl _)
      · exact h.slot_key slot key key' hmem hmem'
  case slot_lt =>
    intro slot key hmem
    rw [hcontents, Array.size_push]
    rcases hslot slot key hmem with ⟨rfl, -, -⟩ | ⟨-, hlt, -⟩
    · exact Nat.lt_succ_self _
    · exact Nat.lt_succ_of_lt hlt
  case slot_ascending =>
    intro slot key hmem
    rcases hslot slot key hmem with ⟨-, -, heq⟩ | ⟨hmem, -, heq⟩
    · rwa [heq]
    · rw [heq]
      exact h.slot_ascending slot key hmem
  case slot_entries =>
    intro slot key hmem v id
    rw [hatom]
    rcases hslot slot key hmem with ⟨-, rfl, heq⟩ | ⟨hmem, -, heq⟩
    · rw [heq]
      exact hentries v id
    · rw [heq]
      exact h.slot_entries slot key hmem v id
  case valueIndexed =>
    rw [hnext]
    exact hvalue
  case valueTypes_nodup => exact hvalueTypes
  case partIndexed => exact hpart

private theorem has_partEntries_foldl {path : String} {ids : List AtomId} {entries : Postings Value} {v : Value}
    {x : AtomId} :
    (ids.foldl (fun entries id =>
      match (s.atom? id).bind fun a => a.value.project path with
      | some part => entries.insert part id
      | none => entries) entries).Has v x ↔
      entries.Has v x ∨ (x ∈ ids ∧ ((s.atom? x).bind fun a => a.value.project path) = some v) := by
  induction ids generalizing entries with
  | nil => simp
  | cons id rest ih =>
    rw [List.foldl_cons, ih]
    rcases hpart : (s.atom? id).bind fun a => a.value.project path with _ | part
    · constructor
      · exact Or.imp_right (And.imp_left (List.mem_cons_of_mem _))
      · rintro (h | ⟨hx, h⟩)
        · exact .inl h
        · rcases List.mem_cons.mp hx with rfl | hx
          · rw [hpart] at h
            simp at h
          · exact .inr ⟨hx, h⟩
    · rw [Postings.has_insert, or_assoc]
      constructor
      · rintro (h | ⟨rfl, rfl⟩ | ⟨hx, h⟩)
        · exact .inl h
        · exact .inr ⟨by simp, hpart⟩
        · exact .inr ⟨List.mem_cons_of_mem _ hx, h⟩
      · rintro (h | ⟨hx, h⟩)
        · exact .inl h
        · rcases List.mem_cons.mp hx with rfl | hx
          · rw [hpart] at h
            exact .inr (.inl ⟨(Option.some.inj h).symm, rfl⟩)
          · exact .inr (.inr ⟨hx, h⟩)

/-- The entries for the parts at a path are those of the atoms of the type. -/
theorem has_partEntries (h : s.Consistent) {ty : AtomId} {path : String} {v : Value} {id : AtomId} :
    (s.partEntries ty path).Has v id ↔ ∃ a, s.atom? id = some a ∧ partKey ty path a = some v := by
  refine has_partEntries_foldl.trans ?_
  rw [Postings.mem_ids h.byType_ascending, h.byType]
  constructor
  · rintro (h | ⟨⟨a, ha, hty⟩, hpart⟩)
    · exact absurd h Postings.not_has_empty
    · rw [ha] at hpart
      exact ⟨a, ha, by rw [partKey, if_pos hty]; exact hpart⟩
  · rintro ⟨a, ha, hkey⟩
    unfold partKey at hkey
    split at hkey
    · rename_i hty
      exact .inr ⟨⟨a, ha, hty⟩, by rw [ha]; exact hkey⟩
    · simp at hkey

theorem ascending_partEntries {ty : AtomId} {path : String} : (s.partEntries ty path).Ascending := by
  unfold partEntries
  generalize s.byType.ids ty = ids
  suffices h : ∀ entries : Postings Value, entries.Ascending → (ids.foldl (fun entries id =>
      match (s.atom? id).bind fun a => a.value.project path with
      | some part => entries.insert part id
      | none => entries) entries).Ascending from h _ Postings.ascending_empty
  induction ids with
  | nil => exact fun _ h => h
  | cons id rest ih =>
    intro entries h
    refine ih _ ?_
    dsimp only
    split
    · exact Postings.ascending_insert h
    · exact h

/-! ### Public operations -/

theorem Consistent.withTypes (h : s.Consistent) {types : List TypeDescriptor}
    (ht : ∀ d ∈ types, d.handle < s.nextId) : ({ s with types } : Store).Consistent :=
  ⟨h.id_eq, h.type_lt, h.targets, ht, h.byType_ascending, h.byType, h.incidence_ascending, h.incidence, h.slot_key,
    h.slot_lt, h.slot_ascending, h.slot_entries, h.valueIndexed, h.valueTypes_nodup, h.partIndexed⟩

theorem Consistent.registerType (h : s.Consistent) {name : String} {search : ValueSearch}
    {dimensions : List String} : (s.registerType name search dimensions).Consistent := by
  have hstored := Consistent.insert (a := { id := s.nextId, type := metaType, value := .string name, targets := [] }) rfl h
    (Nat.succ_le_succ (Nat.zero_le _)) (by simp)
  refine hstored.withTypes fun d hd => ?_
  rcases List.mem_append.mp hd with hd | hd
  · exact hstored.handle_lt d hd
  · rw [List.mem_singleton.mp hd, nextId_insert]
    exact Nat.lt_succ_self _

/-- A new type may get an index over its values, which is empty. -/
private theorem Consistent.indexNewType (h : s.Consistent) (hpos : metaType < s.nextId) {name : String}
    {search : ValueSearch} {dimensions : List String} {index : IndexHandle}
    (hslot : index.slot = (s.registerType name search dimensions).contents.size) (hview : index.view = none)
    (hkind : index.kind ≠ .hashed) :
    ({ (s.registerType name search dimensions).pushIndex .empty with
      valueIndexes := (s.nextId, index) :: (s.registerType name search dimensions).valueIndexes } :
        Store).Consistent := by
  have hdefined : (s.registerType name search dimensions).Consistent := h.registerType
  have hnext : (s.registerType name search dimensions).nextId = s.nextId + 1 := nextId_insert
  refine Consistent.pushSlot (wholeKey s.nextId) hdefined rfl rfl rfl rfl rfl ?_ Postings.ascending_empty ?_ ?_ ?_
    hdefined.partIndexed
  · intro slot key hmem
    rcases List.mem_cons.mp hmem with heq | hmem
    · cases heq
      exact .inl ⟨hslot, rfl⟩
    · exact .inr hmem
  · -- no atom has the new type yet
    intro v x
    refine iff_of_false Postings.not_has_empty ?_
    rintro ⟨a, ha, hkey⟩
    unfold wholeKey at hkey
    split at hkey
    · rename_i hty
      change (s.insert _).atom? x = some a at ha
      rw [atom?_insert] at ha
      split at ha
      · cases ha
        exact Nat.ne_of_lt hpos hty
      · exact Nat.ne_of_lt (h.type_lt ha) hty
    · simp at hkey
  · intro ty index' hmem
    rcases List.mem_cons.mp hmem with heq | hmem
    · cases heq
      exact ⟨hnext ▸ Nat.lt_succ_self _, hview, hkind⟩
    · exact hdefined.valueIndexed ty index' hmem
  · refine List.nodup_cons.mpr ⟨fun hmem => ?_, hdefined.valueTypes_nodup⟩
    obtain ⟨⟨ty, index'⟩, hmem, hty⟩ := List.mem_map.mp hmem
    exact Nat.ne_of_lt (h.valueIndexed ty index' hmem).1 hty

theorem Consistent.defineType (h : s.Consistent) (hpos : metaType < s.nextId) {name : String} {search : ValueSearch}
    {dimensions : List String} {id : AtomId} {s' : Store} (hs : s.defineType name search dimensions = .ok (id, s')) :
    s'.Consistent := by
  unfold Store.defineType at hs
  split at hs
  · simp at hs
  · cases search with
    | none =>
      cases hs
      exact h.registerType
    | point =>
      cases hs
      exact h.indexNewType hpos rfl rfl (by simp)
    | ordered =>
      cases hs
      exact h.indexNewType hpos rfl rfl (by simp)

theorem Consistent.mapValueType (h : s.Consistent) {kind : String} {ty : AtomId} {s' : Store}
    (hs : s.mapValueType kind ty = .ok s') : s'.Consistent := by
  obtain ⟨d, -, hs⟩ := bind_eq_ok_iff.mp hs
  cases hs
  exact ⟨h.id_eq, h.type_lt, h.targets, h.handle_lt, h.byType_ascending, h.byType, h.incidence_ascending,
    h.incidence, h.slot_key, h.slot_lt, h.slot_ascending, h.slot_entries, h.valueIndexed, h.valueTypes_nodup,
    h.partIndexed⟩

theorem Consistent.createPartIndex (h : s.Consistent) {ty : AtomId} {path : String} {ordered : Bool} {s' : Store}
    (hs : s.createPartIndex ty path ordered = .ok s') : s'.Consistent := by
  obtain ⟨d, -, hs⟩ := bind_eq_ok_iff.mp hs
  cases hs
  refine Consistent.pushSlot (partKey ty path) h rfl rfl rfl rfl rfl ?_ ascending_partEntries
    (fun v id => has_partEntries h) h.valueIndexed h.valueTypes_nodup ?_
  · intro slot key hmem
    rcases List.mem_append.mp hmem with hmem | hmem
    · exact .inr (List.mem_append.mpr (.inl hmem))
    · rcases List.mem_cons.mp hmem with heq | hmem
      · cases heq
        exact .inl ⟨rfl, rfl⟩
      · obtain ⟨entry, hentry, heq⟩ := List.mem_map.mp hmem
        exact .inr (List.mem_append.mpr (.inr (List.mem_map.mpr ⟨entry, (List.mem_filter.mp hentry).1, heq⟩)))
  · intro key index hmem
    rcases List.mem_cons.mp hmem with heq | hmem
    · cases heq
      rfl
    · exact h.partIndexed key index (List.mem_filter.mp hmem).1

private theorem stored_of_forIn {targets : List AtomId} {u : PUnit}
    (h : (forIn targets PUnit.unit fun t _ => do
      let _ ← s.atom t
      pure (ForInStep.yield PUnit.unit) : Except QueryError PUnit) = .ok u) :
    ∀ t ∈ targets, ∃ b, s.atom? t = some b := by
  induction targets with
  | nil => simp
  | cons t rest ih =>
    rw [List.forIn_cons] at h
    obtain ⟨step, hstep, h⟩ := bind_eq_ok_iff.mp h
    obtain ⟨b, hb, hstep⟩ := bind_eq_ok_iff.mp hstep
    cases hstep
    intro x hx
    rcases List.mem_cons.mp hx with rfl | hx
    · exact ⟨b, atom?_of_atom hb⟩
    · exact ih h x hx

theorem Consistent.addLink (h : s.Consistent) {ty : AtomId} {targets : List AtomId} {value : Value} {id : AtomId}
    {s' : Store} (hs : s.addLink ty targets value = .ok (id, s')) : s'.Consistent := by
  obtain ⟨d, hd, hs⟩ := bind_eq_ok_iff.mp hs
  obtain ⟨_, htargets, hs⟩ := bind_eq_ok_iff.mp hs
  cases hs
  refine Consistent.insert rfl h ?_ (stored_of_forIn htargets)
  unfold descriptor at hd
  split at hd
  · rename_i d' hfind
    have hty := List.find?_some hfind
    rw [← beq_iff_eq.mp hty]
    exact Nat.le_of_lt (h.handle_lt d' (List.mem_of_find?_eq_some hfind))
  · simp at hd

private theorem consistent_initial : initial.Consistent := by
  have hnone : ∀ {id a}, ¬ blank.atom? id = some a := by
    intro id a ha
    cases id <;> simp [atom?, blank] at ha
  have hblank : blank.Consistent :=
    ⟨fun ha => absurd ha hnone, fun ha => absurd ha hnone, fun ha => absurd ha hnone, by simp [blank],
      Postings.ascending_empty, fun _ _ => iff_of_false Postings.not_has_empty fun ⟨_, ha, _⟩ => hnone ha,
      Postings.ascending_empty, fun _ _ => iff_of_false Postings.not_has_empty fun ⟨_, ha, _⟩ => hnone ha,
      by simp [blank, usedSlots], by simp [blank, usedSlots], by simp [blank, usedSlots], by simp [blank, usedSlots],
      by simp [blank], by simp [blank], by simp [blank]⟩
  exact hblank.registerType.registerType

private theorem nextId_le_insert {a : Atom} {n : Nat} (h : n < s.nextId) : n < (s.insert a).nextId := by
  rw [nextId_insert]
  exact Nat.lt_succ_of_lt h

private theorem lt_nextId_addLink {ty : AtomId} {targets : List AtomId} {value : Value} {id : AtomId} {s' : Store}
    {n : Nat} (hs : s.addLink ty targets value = .ok (id, s')) (h : n < s.nextId) : n < s'.nextId := by
  obtain ⟨d, hd, hs⟩ := bind_eq_ok_iff.mp hs
  obtain ⟨_, htargets, hs⟩ := bind_eq_ok_iff.mp hs
  cases hs
  exact nextId_le_insert h

private theorem lt_nextId_defineType {name : String} {search : ValueSearch} {dimensions : List String} {id : AtomId}
    {s' : Store} {n : Nat} (hs : s.defineType name search dimensions = .ok (id, s')) (h : n < s.nextId) :
    n < s'.nextId := by
  unfold Store.defineType at hs
  split at hs
  · simp at hs
  · cases search <;> cases hs <;> exact nextId_le_insert h

/-- Public operations keep the tables of the store in agreement with its atoms. -/
theorem Reachable.consistent (h : s.Reachable) : s.Consistent ∧ metaType < s.nextId := by
  induction h with
  | initial => exact ⟨consistent_initial, by decide⟩
  | defineType _ hs ih => exact ⟨ih.1.defineType ih.2 hs, lt_nextId_defineType hs ih.2⟩
  | mapValueType _ hs ih =>
    refine ⟨ih.1.mapValueType hs, ?_⟩
    obtain ⟨d, -, hs⟩ := bind_eq_ok_iff.mp hs
    cases hs
    exact ih.2
  | createPartIndex _ hs ih =>
    refine ⟨ih.1.createPartIndex hs, ?_⟩
    obtain ⟨d, -, hs⟩ := bind_eq_ok_iff.mp hs
    cases hs
    exact ih.2
  | addAtom _ hs ih => exact ⟨ih.1.addLink hs, lt_nextId_addLink hs ih.2⟩
  | addLink _ hs ih => exact ⟨ih.1.addLink hs, lt_nextId_addLink hs ih.2⟩
  | declareSubtype _ hs ih =>
    obtain ⟨_, -, hs⟩ := bind_eq_ok_iff.mp hs
    obtain ⟨_, -, hs⟩ := bind_eq_ok_iff.mp hs
    exact ⟨ih.1.addLink hs, lt_nextId_addLink hs ih.2⟩

/-! ### Reading a consistent store -/

theorem mem_atoms (h : s.Consistent) {a : Atom} : a ∈ s.atoms.toList ↔ s.atom? a.id = some a := by
  constructor
  · intro ha
    obtain ⟨n, hn, hget⟩ := List.mem_iff_getElem.mp ha
    have hat : s.atom? (n + 1) = some a := by
      rw [atom?_succ, ← Array.getElem?_toList, List.getElem?_eq_getElem hn, hget]
    rwa [h.id_eq hat]
  · generalize a.id = id
    intro ha
    cases id with
    | zero => simp [atom?_zero] at ha
    | succ n =>
      rw [atom?_succ] at ha
      exact Array.mem_toList_iff.mpr (Array.mem_of_getElem? ha)

theorem mem_atomIds (h : s.Consistent) {id : AtomId} :
    id ∈ s.atoms.toList.map Atom.id ↔ ∃ a, s.atom? id = some a := by
  rw [List.mem_map]
  constructor
  · rintro ⟨a, ha, rfl⟩
    exact ⟨a, (mem_atoms h).mp ha⟩
  · rintro ⟨a, ha⟩
    have hid := h.id_eq ha
    exact ⟨a, (mem_atoms h).mpr (hid.symm ▸ ha), hid⟩

theorem mem_typeIds (h : s.Consistent) {ty id : AtomId} :
    id ∈ s.byType.ids ty ↔ ∃ a, s.atom? id = some a ∧ a.type = ty :=
  (Postings.mem_ids h.byType_ascending).trans (h.byType ty id)

theorem mem_incidentIds (h : s.Consistent) {x id : AtomId} :
    id ∈ s.incidence.ids x ↔ ∃ a, s.atom? id = some a ∧ x ∈ a.targets :=
  (Postings.mem_ids h.incidence_ascending).trans (h.incidence x id)

theorem mem_matching_of_usedSlots (h : s.Consistent) {index : IndexHandle} (key : Atom → Option Value)
    (hmem : (index.slot, key) ∈ s.usedSlots) {op : Comparison} {literal : Value} {id : AtomId} :
    id ∈ index.matching s op literal ↔
      ∃ a, s.atom? id = some a ∧ ∃ v, key a = some v ∧ v.satisfies op literal = true := by
  rw [IndexHandle.mem_matching (h.slot_ascending _ key hmem)]
  constructor
  · rintro ⟨v, hv, hsat⟩
    obtain ⟨a, ha, hkey⟩ := (h.slot_entries _ key hmem v id).mp hv
    exact ⟨a, ha, v, hkey, hsat⟩
  · rintro ⟨a, ha, v, hkey, hsat⟩
    exact ⟨v, (h.slot_entries _ key hmem v id).mpr ⟨a, ha, hkey⟩, hsat⟩

/-- The index over the values of a type finds the atoms of the type by their values. -/
theorem mem_matching_valueIndex (h : s.Consistent) {ty : AtomId} {index : IndexHandle}
    (hindex : s.valueIndex? ty = some index) {op : Comparison} {literal : Value} {id : AtomId} :
    id ∈ index.matching s op literal ↔
      ∃ a, s.atom? id = some a ∧ a.type = ty ∧ a.value.satisfies op literal = true := by
  rw [mem_matching_of_usedSlots h (wholeKey ty)
    (List.mem_append.mpr (.inl (List.mem_map.mpr ⟨(ty, index), mem_of_lookup hindex, rfl⟩)))]
  simp [wholeKey, and_assoc]

/-- The index over the parts of the values of a type finds the atoms of the type by those parts. -/
theorem mem_matching_partIndex (h : s.Consistent) {ty : AtomId} {path : String} {index : IndexHandle}
    (hindex : s.partIndex? ty path = some index) {op : Comparison} {literal : Value} {id : AtomId} :
    id ∈ index.matching s op literal ↔
      ∃ a, s.atom? id = some a ∧ a.type = ty ∧
        ∃ part, a.value.project path = some part ∧ part.satisfies op literal = true := by
  rw [mem_matching_of_usedSlots h (partKey ty path)
    (List.mem_append.mpr (.inr (List.mem_map.mpr ⟨((ty, path), index), mem_of_lookup hindex, rfl⟩)))]
  simp [partKey, and_assoc]

end Store

end HyperQuery
