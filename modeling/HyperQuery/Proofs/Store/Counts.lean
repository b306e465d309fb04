import HyperQuery.Proofs.Store.Changes
import HyperQuery.Proofs.Store.Lookup
import HyperQuery.Store.Scan

/-!
# What the sizes in a store count

The store answers how many atoms a type has, how many links point at an atom and how many entries an index has under a
key from the sizes of its tables. These are numbers of atoms because no table lists an atom twice in one place: the sets
of handles are strictly ascending in every reachable store (`Reachable.setsAscending`), and an atom has at most one key
in an index (`nodup_matching_of_usedSlots`).
-/

namespace HyperQuery

namespace Store

variable {s s' : Store}

/-- The sets of handles in the tables of the store are strictly ascending. -/
structure SetsAscending (s : Store) : Prop where
  byType : s.byType.IdsAscending
  incidence : s.incidence.IdsAscending
  slot : ∀ slot, slot < s.contents.size → (s.slotEntries slot).IdsAscending

private theorem idsAscending_empty {κ : Type} : (Postings.empty : Postings κ).IdsAscending := by
  simp [Postings.IdsAscending, Postings.empty]

private theorem idsAscending_incidence {targets : List AtomId} {table : Postings AtomId} {id : AtomId}
    (h : table.IdsAscending) : (targets.foldl (fun table target => table.insert target id) table).IdsAscending :=
  List.foldlRecOn _ _ h fun _ h _ _ => Postings.idsAscending_insert h

private theorem idsAscending_enter {id : AtomId} {contents : Array (Postings Value)} {entries : List (Nat × Value)}
    {slot : Nat} (hslot : slot < contents.size) (h : (contents.getD slot .empty).IdsAscending) :
    ((enter id contents entries).getD slot .empty).IdsAscending := by
  induction entries generalizing contents with
  | nil => exact h
  | cons e rest ih =>
    obtain ⟨slot', key⟩ := e
    change ((enter id (contents.modify slot' fun entries => entries.insert key id) rest).getD slot .empty).IdsAscending
    refine ih (by rwa [Array.size_modify]) ?_
    rw [getD_modify hslot]
    by_cases hs : slot' = slot
    · rw [if_pos hs]
      exact Postings.idsAscending_insert h
    · rw [if_neg hs]
      exact h

private theorem idsAscending_partEntries {ty : AtomId} {path : String} : (s.partEntries ty path).IdsAscending := by
  refine List.foldlRecOn _ _ idsAscending_empty fun entries h id _ => ?_
  split
  · exact Postings.idsAscending_insert h
  · exact h

private theorem SetsAscending.pushIndex (h : s.SetsAscending) {entries : Postings Value}
    (hentries : entries.IdsAscending) : (s.pushIndex entries).SetsAscending := by
  refine ⟨h.byType, h.incidence, fun slot hslot => ?_⟩
  have hsize : slot < s.contents.size + 1 := by simpa [Store.pushIndex] using hslot
  rcases Nat.lt_succ_iff_lt_or_eq.mp hsize with hlt | rfl
  · have hold : (s.pushIndex entries).slotEntries slot = s.slotEntries slot := slotEntries_push hlt
    rw [hold]
    exact h.slot slot hlt
  · have hnew : (s.pushIndex entries).slotEntries s.contents.size = entries := slotEntries_push_self
    rw [hnew]
    exact hentries

private theorem SetsAscending.step (hstep : Step s s') (h : s.SetsAscending) : s'.SetsAscending := by
  cases hstep with
  | @insert a hid htype =>
    refine ⟨Postings.idsAscending_insert h.byType, idsAscending_incidence h.incidence, fun slot hslot => ?_⟩
    have hsize : (s.insert a).contents.size = s.contents.size := size_enter
    rw [hsize] at hslot
    exact idsAscending_enter hslot (h.slot slot hslot)
  | describe | setKinds => exact ⟨h.byType, h.incidence, h.slot⟩
  | indexValues ty index =>
    have hpushed := h.pushIndex idsAscending_empty
    exact ⟨hpushed.byType, hpushed.incidence, hpushed.slot⟩
  | indexParts ty path index =>
    have hpushed : (s.pushIndex (s.partEntries ty path)).SetsAscending := h.pushIndex idsAscending_partEntries
    exact ⟨hpushed.byType, hpushed.incidence, hpushed.slot⟩

theorem Reachable.setsAscending (h : s.Reachable) : s.SetsAscending :=
  h.step_induction (fun _ _ => SetsAscending.step) ⟨idsAscending_empty, idsAscending_empty, by simp [blank]⟩

/-! ### Atoms, types and links -/

/-- No two positions hold atoms of the same handle. -/
theorem nodup_atomIds (h : s.Consistent) : (s.atoms.toList.map Atom.id).Nodup := by
  have hid : ∀ n (hn : n < s.atoms.toList.length), s.atoms.toList[n].id = n + 1 := by
    intro n hn
    have hat : s.atom? (n + 1) = some s.atoms.toList[n] := by
      rw [atom?_succ, ← Array.getElem?_toList, List.getElem?_eq_getElem hn]
    exact h.id_eq hat
  rw [List.nodup_iff_injective_get]
  intro i j hij
  have hi := hid i (by simpa using i.isLt)
  have hj := hid j (by simpa using j.isLt)
  simp only [List.get_eq_getElem, List.getElem_map] at hij
  rw [hi, hj] at hij
  exact Fin.ext (Nat.succ_inj.mp hij)

theorem nodup_ids {κ : Type} [Ord κ] {p : Postings κ} (h : p.IdsAscending) {key : κ} : (p.ids key).Nodup := by
  unfold Postings.ids
  split
  · rename_i entry hfind
    exact AtomSet.nodup_of_ascending (h entry (List.mem_of_find?_eq_some hfind))
  · exact List.nodup_nil

/-- No atom is listed under two types. -/
theorem nodup_flatMap_typeIds (h : s.Consistent) (hsets : s.SetsAscending) {types : List AtomId}
    (htypes : types.Nodup) : (types.flatMap s.byType.ids).Nodup := by
  refine List.nodup_flatMap.mpr ⟨fun ty _ => nodup_ids hsets.byType, htypes.imp fun {ty ty'} hne id hid hid' => ?_⟩
  obtain ⟨a, ha, hty⟩ := (mem_typeIds h).mp hid
  obtain ⟨a', ha', hty'⟩ := (mem_typeIds h).mp hid'
  rw [ha] at ha'
  cases ha'
  exact hne (hty.symm.trans hty')

theorem nodup_subtypes {ty : AtomId} {below : List AtomId} (h : s.subtypes ty = .ok below) : below.Nodup := by
  obtain ⟨_, -, h⟩ := bind_eq_ok_iff.mp h
  obtain ⟨found, -, h⟩ := bind_eq_ok_iff.mp h
  cases h
  exact AtomSet.nodup_of_ascending (AtomSet.sorted_ofList found)

/-! ### Indexes -/

section UsedSlot

variable {index : IndexHandle} {key : Atom → Option Value} (h : s.Consistent) (hsets : s.SetsAscending)
  (hused : (index.slot, key) ∈ s.usedSlots)

include h hused

/-- An atom has one key in a slot in use. -/
private theorem key_unique {v w : Value} {id : AtomId} (hv : (index.entries s).Has v id)
    (hw : (index.entries s).Has w id) : v = w := by
  obtain ⟨a, ha, hkey⟩ := (h.slot_entries _ key hused v id).mp hv
  obtain ⟨a', ha', hkey'⟩ := (h.slot_entries _ key hused w id).mp hw
  rw [ha] at ha'
  cases ha'
  exact Option.some.inj (hkey.symm.trans hkey')

include hsets in
/-- A look-up in a slot in use meets no atom twice. -/
theorem nodup_matching_of_usedSlots (literal : Value) : (index.matching s .eq literal).Nodup :=
  IndexHandle.nodup_matching (h.slot_ascending _ key hused) (hsets.slot _ (h.slot_lt _ key hused))
    (fun _ _ _ => key_unique h hused) literal

theorem mem_allIds_of_usedSlots {id : AtomId} :
    id ∈ (index.entries s).allIds ↔ ∃ a, s.atom? id = some a ∧ ∃ v, key a = some v := by
  have hmem : id ∈ (index.entries s).allIds ↔ ∃ v, (index.entries s).Has v id := by
    simp only [Postings.allIds, List.mem_flatMap, Prod.exists, Postings.Has]
  rw [hmem]
  constructor
  · rintro ⟨v, hv⟩
    obtain ⟨a, ha, hkey⟩ := (h.slot_entries _ key hused v id).mp hv
    exact ⟨a, ha, v, hkey⟩
  · rintro ⟨a, ha, v, hkey⟩
    exact ⟨v, (h.slot_entries _ key hused v id).mpr ⟨a, ha, hkey⟩⟩

end UsedSlot

end Store

end HyperQuery
