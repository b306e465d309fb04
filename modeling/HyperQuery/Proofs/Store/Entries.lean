import HyperQuery.Proofs.Store.Changes

/-!
# Index entries are stored atoms

No operation takes an atom out of the store. So all handles among the entries of an index are those of stored atoms, also
of an index that has been replaced and is no longer kept up to date (`Reachable.entries_stored`), and look-ups find stored
atoms only, whichever index they go to (`Reachable.stored_of_mem_matching`).
-/

namespace HyperQuery

namespace Store

variable {s s' : Store} {id : AtomId}

/-- Every handle among the entries is that of a stored atom. -/
private def HoldsStored (s : Store) (entries : Postings Value) : Prop :=
  ∀ v id, entries.Has v id → ∃ a, s.atom? id = some a

private theorem holdsStored_empty : s.HoldsStored .empty := fun _ _ h => absurd h Postings.not_has_empty

private theorem holdsStored_partEntries {ty : AtomId} {path : String} : s.HoldsStored (s.partEntries ty path) := by
  refine List.foldlRecOn (motive := s.HoldsStored) _ _ holdsStored_empty fun entries h id _ => ?_
  split
  · rename_i part hpart
    intro v x hx
    rcases Postings.has_insert.mp hx with hx | ⟨-, rfl⟩
    · exact h v x hx
    · obtain ⟨a, ha, -⟩ := Option.bind_eq_some_iff.mp hpart
      exact ⟨a, ha⟩
  · exact h

/-- Adding a slot leaves the others. -/
private theorem holdsStored_push {contents : Array (Postings Value)} {entries : Postings Value}
    (h : ∀ slot, slot < contents.size → s.HoldsStored (contents.getD slot .empty)) (hentries : s.HoldsStored entries)
    {slot : Nat} (hslot : slot < (contents.push entries).size) :
    s.HoldsStored ((contents.push entries).getD slot .empty) := by
  rw [Array.getD_eq_getD_getElem?, Array.getElem?_push]
  split
  · exact hentries
  · rename_i hne
    rw [← Array.getD_eq_getD_getElem?]
    rw [Array.size_push] at hslot
    exact h slot (by omega)

private theorem holdsStored_step (hstep : Step s s')
    (h : ∀ slot, slot < s.contents.size → s.HoldsStored (s.slotEntries slot)) :
    ∀ slot, slot < s'.contents.size → s'.HoldsStored (s'.slotEntries slot) := by
  intro slot hslot
  cases hstep with
  | @insert a hid htype =>
    have hsize : (s.insert a).contents.size = s.contents.size := size_enter
    rw [hsize] at hslot
    intro v x hx
    rcases (has_enter hslot).mp hx with hx | ⟨-, rfl⟩
    · obtain ⟨b, hb⟩ := h slot hslot v x hx
      exact ⟨b, (atom?_insert_eq_some_iff hid).mpr (.inl hb)⟩
    · exact ⟨a, (atom?_insert_eq_some_iff hid).mpr (.inr ⟨rfl, rfl⟩)⟩
  | describe | setKinds => exact h slot hslot
  | indexValues => exact holdsStored_push h holdsStored_empty hslot
  | indexParts => exact holdsStored_push h holdsStored_partEntries hslot

/-- The handles among the entries of any slot are those of stored atoms. -/
theorem Reachable.entries_stored (h : s.Reachable) {slot : Nat} {v : Value} (hid : (s.slotEntries slot).Has v id) :
    ∃ a, s.atom? id = some a := by
  have hslots : ∀ slot, slot < s.contents.size → s.HoldsStored (s.slotEntries slot) :=
    h.step_induction (motive := fun s => ∀ slot, slot < s.contents.size → s.HoldsStored (s.slotEntries slot))
      (fun _ _ => holdsStored_step) (by simp [blank])
  by_cases hslot : slot < s.contents.size
  · exact hslots slot hslot v id hid
  · rw [slotEntries, Array.getD_eq_getD_getElem?, Array.getElem?_eq_none (by omega)] at hid
    exact absurd hid Postings.not_has_empty

/-- Look-ups find stored atoms only. -/
theorem Reachable.stored_of_mem_matching (h : s.Reachable) {index : IndexHandle} {op : Comparison} {key : Value}
    (hid : id ∈ index.matching s op key) : ∃ a, s.atom? id = some a := by
  obtain ⟨span, -, hid⟩ := List.mem_flatMap.mp hid
  obtain ⟨⟨v, ids⟩, hentry, hid⟩ := List.mem_flatMap.mp hid
  have hentry : (v, ids) ∈ (index.entries s).entries :=
    ((List.takeWhile_sublist _).trans (List.dropWhile_sublist _)).subset hentry
  dsimp only at hid
  split at hid
  · have hhas : (s.slotEntries index.slot).Has v id := ⟨ids, hentry, hid⟩
    exact h.entries_stored hhas
  · simp at hid

end Store

end HyperQuery
