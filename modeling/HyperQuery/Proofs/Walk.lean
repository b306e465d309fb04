import HyperQuery.Cursor.Blueprint
import HyperQuery.Proofs.AtomSet
import HyperQuery.Proofs.Exploration
import HyperQuery.Proofs.Store.Consistent

/-!
# Walks reach what links lead to

In a consistent store every handle has neighbours (`answer_neighbours`), and they are targets of links, of which there
are not more than atoms (`length_linkTargets_le_atoms`). So a walk ends, and it reaches the handles that the neighbours
lead to (`answer_reachable`).
-/

namespace HyperQuery

namespace Store

variable {s : Store}

/-- The targets of the links in the store, each once. -/
def linkTargets (s : Store) : List AtomId := AtomSet.ofList (s.atoms.toList.flatMap Atom.targets)

theorem nodup_linkTargets : s.linkTargets.Nodup := AtomSet.nodup_of_ascending (AtomSet.sorted_ofList _)

theorem mem_linkTargets (h : s.Consistent) {z : AtomId} :
    z ∈ s.linkTargets ↔ ∃ id a, s.atom? id = some a ∧ z ∈ a.targets := by
  rw [linkTargets, AtomSet.mem_ofList, List.mem_flatMap]
  constructor
  · rintro ⟨a, ha, hz⟩
    exact ⟨a.id, a, (mem_atoms h).mp ha, hz⟩
  · rintro ⟨id, a, ha, hz⟩
    have hid := h.id_eq ha
    exact ⟨a, (mem_atoms h).mpr (hid.symm ▸ ha), hz⟩

theorem length_linkTargets_le_atoms (h : s.Consistent) : s.linkTargets.length ≤ s.atoms.size := by
  have hlength : s.linkTargets.length ≤ (s.atoms.toList.map Atom.id).length := by
    refine nodup_linkTargets.length_le_of_subset fun z hz => ?_
    obtain ⟨id, a, ha, hz⟩ := (mem_linkTargets h).mp hz
    exact (mem_atomIds h).mpr (h.targets ha z hz)
  simpa using hlength

theorem length_linkTargets_le_linkEnds : s.linkTargets.length ≤ s.linkEnds := by
  have hends : ∀ (as : List Atom) (n : Nat),
      as.foldl (fun n a => n + a.targets.length) n = n + (as.flatMap Atom.targets).length := by
    intro as
    induction as with
    | nil => intro n; rfl
    | cons a as ih =>
      intro n
      rw [List.foldl_cons, ih, List.flatMap_cons, List.length_append, Nat.add_assoc]
  have hlength : s.linkTargets.length ≤ (s.atoms.toList.flatMap Atom.targets).length :=
    nodup_linkTargets.length_le_of_subset fun z hz => AtomSet.mem_ofList.mp hz
  unfold linkEnds
  rwa [← Array.foldl_toList, hends, Nat.zero_add]

end Store

namespace Walk

variable {s : Store} {w : Walk}

/-- The neighbours of a handle. -/
def next (w : Walk) (s : Store) (id : AtomId) : List AtomId :=
  match (w.neighbours s id).answer with
  | .ok ids => ids
  | .error _ => []

private theorem mem_targets_of_mem_across {id z : AtomId} {link : Atom} (h : z ∈ w.across id link) :
    z ∈ link.targets := by
  unfold across at h
  split at h
  · simp at h
  · split at h
    · simp at h
    · rename_i source rest htargets
      rw [htargets]
      split at h
      · split at h
        · exact List.mem_cons_of_mem source h
        · simp at h
      · split at h
        · rw [List.mem_singleton.mp h]
          exact List.mem_cons_self
        · simp at h
      · rw [htargets] at h
        exact (List.mem_filter.mp h).1

private theorem exists_neighbours (h : s.Consistent) (x : AtomId) : ∃ ids, (w.neighbours s x).answer = .ok ids ∧
    ∀ z, z ∈ ids ↔ ∃ id a, s.atom? id = some a ∧ x ∈ a.targets ∧ z ∈ w.across x a := by
  have hstored : ∀ link ∈ AtomSet.ofList (s.incidence.ids x), ∃ a, s.atom link = .ok a := by
    intro link hlink
    obtain ⟨a, ha, -⟩ := (Store.mem_incidentIds h).mp (AtomSet.mem_ofList.mp hlink)
    exact ⟨a, by simp [Store.atom, ha]⟩
  obtain ⟨links, hlinks⟩ := exists_mapM_eq_ok hstored
  refine ⟨links.flatMap (w.across x), ?_, fun z => ?_⟩
  · have hset : (s.incidenceSet x).answer = .ok (.sorted (s.incidence.ids x)) := rfl
    unfold neighbours
    rw [Metered.answer_bind_of_ok hset]
    exact Metered.answer_bind_of_ok hlinks
  · rw [List.mem_flatMap]
    constructor
    · rintro ⟨a, ha, hz⟩
      obtain ⟨id, hid, hatom⟩ := (mem_of_mapM_eq_ok hlinks).mp ha
      obtain ⟨b, hb, hx⟩ := (Store.mem_incidentIds h).mp (AtomSet.mem_ofList.mp hid)
      obtain rfl : b = a := by simpa [Store.atom, hb] using hatom
      exact ⟨id, b, hb, hx, hz⟩
    · rintro ⟨id, a, ha, hx, hz⟩
      have hid : id ∈ AtomSet.ofList (s.incidence.ids x) :=
        AtomSet.mem_ofList.mpr ((Store.mem_incidentIds h).mpr ⟨a, ha, hx⟩)
      exact ⟨a, (mem_of_mapM_eq_ok hlinks).mpr ⟨id, hid, by simp [Store.atom, ha]⟩, hz⟩

theorem answer_neighbours (h : s.Consistent) (id : AtomId) : (w.neighbours s id).answer = .ok (w.next s id) := by
  obtain ⟨ids, hids, -⟩ := exists_neighbours (w := w) h id
  rw [next, hids]

/-- A walk goes on along the links that an atom is a target of. -/
theorem mem_next_iff_across (h : s.Consistent) {x z : AtomId} :
    z ∈ w.next s x ↔ ∃ id a, s.atom? id = some a ∧ x ∈ a.targets ∧ z ∈ w.across x a := by
  obtain ⟨ids, hids, hmem⟩ := exists_neighbours (w := w) h x
  rw [next, hids]
  exact hmem z

theorem mem_linkTargets_of_mem_next (h : s.Consistent) {id z : AtomId} (hz : z ∈ w.next s id) : z ∈ s.linkTargets := by
  obtain ⟨link, a, ha, -, hz⟩ := (mem_next_iff_across h).mp hz
  exact (Store.mem_linkTargets h).mpr ⟨link, a, ha, mem_targets_of_mem_across hz⟩

/-- A walk from a stored atom reaches stored atoms only. -/
theorem stored_of_reach (h : s.Consistent) {x z : AtomId} (hx : ∃ a, s.atom? x = some a)
    (hz : Reach (w.next s) x z) : ∃ a, s.atom? z = some a := by
  cases hz with
  | refl => exact hx
  | step _ hz =>
    obtain ⟨id, a, ha, hz⟩ := (Store.mem_linkTargets h).mp (mem_linkTargets_of_mem_next h hz)
    exact h.targets ha z hz

/-- The only handle of no stored atom that a walk can reach is the one it starts from. -/
theorem reach_iff_of_not_stored (h : s.Consistent) {x z : AtomId} (hz : s.atom? z = none) :
    Reach (w.next s) x z ↔ z = x := by
  constructor
  · intro hreach
    cases hreach with
    | refl => rfl
    | step _ hnext =>
      obtain ⟨id, a, ha, htarget⟩ := (Store.mem_linkTargets h).mp (mem_linkTargets_of_mem_next h hnext)
      obtain ⟨b, hb⟩ := h.targets ha z htarget
      rw [hz] at hb
      simp at hb
  · rintro rfl
    exact .refl

/-- In evaluation a walk reaches what the neighbours lead to. -/
theorem answer_reachable (h : s.Consistent) : ∃ ids, (w.reachable s).answer = .ok ids ∧
    ∀ z, z ∈ ids ↔ Reach (w.next s) w.start z ∧ (w.includeStart = false → z ≠ w.start) := by
  have hroom : explorationRoom s.linkTargets [w.start] [w.start] ≤ s.closureFuel := by
    have h1 := List.length_filter_le (fun z => !([w.start].contains z)) s.linkTargets
    have h2 := Store.length_linkTargets_le_atoms h
    unfold explorationRoom Store.closureFuel
    simp only [List.length_singleton]
    omega
  obtain ⟨taken, found, hexplores, hanswer, hfound⟩ := closure_explores Store.nodup_linkTargets
    (answer_neighbours (w := w) h) (fun _ _ hz => mem_linkTargets_of_mem_next h hz) (fun _ hz => hz) hroom
  have hmem : ∀ z, z ∈ AtomSet.ofList found ↔ Reach (w.next s) w.start z := by
    intro z
    rw [AtomSet.mem_ofList, hfound, ← hexplores.mem_iff_reach]
    refine ⟨fun hz => hz.elim (fun hz => ?_) id, .inr⟩
    exact hexplores.mem_of_mem_pending hz
  refine ⟨_, Metered.answer_bind_of_ok hanswer, fun z => ?_⟩
  cases hstart : w.includeStart with
  | true => simp [hmem]
  | false => simp [hmem]

end Walk

end HyperQuery
