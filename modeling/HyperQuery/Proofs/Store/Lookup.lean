import Mathlib.Data.List.Nodup
import HyperQuery.Proofs.Cursor.Snapshot
import HyperQuery.Proofs.Store.Index

/-!
# What an index answers for the pairs inserted into it

Whatever pairs of a key and a handle were inserted, in whatever order, a look-up yields the handles under the keys that
satisfy the comparison, each once (`IndexHandle.findRange_of_insertions`). The number of handles under a key is counted
before repeats are dropped. For equality the ranges that are read have no key in common (`pairwise_keySpans_eq`), and so
nothing is counted twice as long as every handle is stored under one key (`IndexHandle.nodup_matching`).

Whether an index does what it says about itself (`IndexHandle.Conforms`) is a question for wrappers only.
-/

namespace HyperQuery

/-! ### Opened snapshots -/

/-- The handles that the cursor over a snapshot yields. -/
def Snapshot.drained (snap : Snapshot) : Metered (List AtomId) := (SnapshotCursor.navigation.drain (.start snap)).1

theorem Snapshot.answer_drained {snap : Snapshot} (h : snap.arrangement = .sorted → snap.items.Pairwise (· < ·)) :
    snap.drained.answer = .ok snap.items := by
  obtain ⟨t, hdrain, -⟩ := (SnapshotCursor.yields snap h).drain .before
  exact hdrain

namespace IndexHandle

variable {h : IndexHandle} {s : Store} {pairs : List (Value × AtomId)} {op : Comparison} {key : Value}

theorem answer_opened {ids : List AtomId} :
    (h.opened ids).answer = .ok (if h.kind = .hashed then .hashed ids else .sorted ids) := rfl

/-- What is handed out has every handle once, and in ascending order unless the index is hashed. -/
theorem exists_drained_opened (h : IndexHandle) (found : List AtomId) :
    ∃ ids, (h.opened found >>= Snapshot.drained).answer = .ok ids ∧ ids.Nodup ∧
      (h.kind ≠ .hashed → ids.Pairwise (· < ·)) ∧ ∀ id, id ∈ ids ↔ id ∈ found := by
  generalize hsnap : (if h.kind = .hashed then Snapshot.hashed found else .sorted found) = snap
  have hopened : (h.opened found).answer = .ok snap := hsnap ▸ answer_opened
  by_cases hkind : h.kind = .hashed
  · rw [if_pos hkind] at hsnap
    subst hsnap
    refine ⟨found.eraseDups, ?_, AtomSet.nodup_eraseDups found, fun hne => absurd hkind hne, fun id => List.mem_eraseDups⟩
    rw [Metered.answer_bind_of_ok hopened]
    exact Snapshot.answer_drained (by simp [Snapshot.hashed])
  · rw [if_neg hkind] at hsnap
    subst hsnap
    have hsorted := AtomSet.sorted_ofList found
    refine ⟨AtomSet.ofList found, ?_, AtomSet.nodup_of_ascending hsorted, fun _ => hsorted, fun id => AtomSet.mem_ofList⟩
    rw [Metered.answer_bind_of_ok hopened]
    exact Snapshot.answer_drained fun _ => hsorted

/-! ### Nothing is read twice -/

private theorem eq_of_contains_own {k : Value} (hk : (KeySpan.own .eq key).Contains k) : k = key := by
  obtain ⟨hlow, hhigh⟩ := hk
  simp only [KeySpan.own, Postings.Bound.isBelow, Postings.Bound.isAbove, bne_iff_ne, ne_eq] at hlow hhigh
  rcases hc : compare key k with _ | _ | _
  · exact absurd (Std.OrientedCmp.gt_of_lt hc) hhigh
  · exact (Std.LawfulEqOrd.eq_of_compare hc).symm
  · exact absurd hc hlow

/-- The ranges that are read for equality have no key in common: the second one is of another kind than the key. -/
theorem pairwise_keySpans_eq (key : Value) :
    (keySpans .eq key).Pairwise fun a b => ∀ k, a.Contains k → ¬ b.Contains k := by
  have hsecond : ∀ span, ¬ span.Contains key →
      [KeySpan.own .eq key, span].Pairwise fun a b => ∀ k, a.Contains k → ¬ b.Contains k := by
    intro span hspan
    refine List.pairwise_pair.mpr fun k hk => ?_
    rw [eq_of_contains_own hk]
    exact hspan
  cases key with
  | int n =>
    -- every double comes after the integer
    exact hsecond _ fun hcontains => Bool.noConfusion hcontains.1
  | float x =>
    by_cases hx : x.isNaN = true
    · simp [keySpans, hx]
    · have hspans : keySpans .eq (.float x) = [.own .eq (.float x), .integersAround .eq x] := by simp [keySpans, hx]
      rw [hspans]
      -- and every integer before the double
      exact hsecond _ fun hcontains => Bool.noConfusion hcontains.2
  | null | bool _ | string _ | bytes _ | record _ => exact List.pairwise_singleton _ _

/-- What an entry of a range contributes is listed under its key, which lies in the range. -/
private theorem has_of_mem_entry (hasc : (h.entries s).Ascending) {span : KeySpan} {entry : Value × List AtomId}
    {id : AtomId} (hentry : entry ∈ (h.entries s).span span.lower span.upper)
    (hid : id ∈ if entry.1.satisfies .eq key then entry.2 else []) :
    (h.entries s).Has entry.1 id ∧ span.Contains entry.1 := by
  obtain ⟨hentry, hcontains⟩ := (Postings.mem_span hasc).mp hentry
  split at hid
  · exact ⟨⟨entry.2, hentry, hid⟩, hcontains⟩
  · simp at hid

/-- If every handle is stored under one key, a look-up of equal keys meets no handle twice. -/
theorem nodup_matching (hasc : (h.entries s).Ascending) (hids : (h.entries s).IdsAscending)
    (hone : ∀ k k' id, (h.entries s).Has k id → (h.entries s).Has k' id → k = k') (key : Value) :
    (h.matching s .eq key).Nodup := by
  unfold matching
  refine List.nodup_flatMap.mpr ⟨fun span _ => List.nodup_flatMap.mpr ⟨?_, ?_⟩, ?_⟩
  · rintro ⟨k, ids⟩ hentry
    have hids := hids _ ((Postings.mem_span hasc).mp hentry).1
    show (if k.satisfies .eq key then ids else []).Nodup
    split
    · exact AtomSet.nodup_of_ascending hids
    · exact List.nodup_nil
  · -- different entries of one range have different keys
    have hspan : ((h.entries s).span span.lower span.upper).Pairwise fun a b => compare a.1 b.1 = .lt :=
      hasc.sublist ((List.takeWhile_sublist _).trans (List.dropWhile_sublist _))
    refine hspan.imp_of_mem fun {a b} ha hb hab id hida hidb => ?_
    have hkey := hone _ _ id (has_of_mem_entry hasc ha hida).1 (has_of_mem_entry hasc hb hidb).1
    have heq : compare a.1 b.1 = .eq := hkey ▸ Std.ReflOrd.compare_self
    rw [heq] at hab
    exact absurd hab (by simp)
  · refine (pairwise_keySpans_eq key).imp fun {a b} hab id hida hidb => ?_
    obtain ⟨entry, hentry, hida⟩ := List.mem_flatMap.mp hida
    obtain ⟨entry', hentry', hidb⟩ := List.mem_flatMap.mp hidb
    obtain ⟨hhas, hcontains⟩ := has_of_mem_entry hasc hentry hida
    obtain ⟨hhas', hcontains'⟩ := has_of_mem_entry hasc hentry' hidb
    rw [hone _ _ id hhas hhas'] at hcontains
    exact hab _ hcontains hcontains'

/-! ### Look-ups -/

theorem findRange_eq_opened (hop : op.isRange = true → h.isOrdered = true ∧ h.view = none) :
    h.findRange s op key = h.opened (h.matching s op key) := by
  unfold findRange
  cases hrange : op.isRange with
  | false =>
    have heq : op = .eq := by cases op <;> simp_all [Comparison.isRange]
    rw [heq]
    rfl
  | true =>
    obtain ⟨hordered, hview⟩ := hop hrange
    simp [hordered, hview]

/-- After any insertions a look-up yields the handles inserted under the keys that satisfy the comparison, each once and,
unless the index is hashed, in ascending order. If every handle was inserted under one key only, the number of handles
under a key is the number of those that looking the key up yields. -/
theorem findRange_of_insertions (hentries : h.entries s = .ofPairs pairs)
    (hop : op.isRange = true → h.isOrdered = true ∧ h.view = none) :
    (∃ ids, (h.findRange s op key >>= Snapshot.drained).answer = .ok ids ∧ ids.Nodup ∧
      (h.kind ≠ .hashed → ids.Pairwise (· < ·)) ∧
      ∀ id, id ∈ ids ↔ ∃ k, (k, id) ∈ pairs ∧ k.satisfies op key = true) ∧
    ((∀ k k' id, (k, id) ∈ pairs → (k', id) ∈ pairs → k = k') →
      ∃ ids, (h.find s key >>= Snapshot.drained).answer = .ok ids ∧ h.countKey s key = ids.length) := by
  have hasc : (h.entries s).Ascending := hentries ▸ Postings.ascending_ofPairs
  have hhas : ∀ k id, (h.entries s).Has k id ↔ (k, id) ∈ pairs := fun k id => by rw [hentries, Postings.has_ofPairs]
  constructor
  · obtain ⟨ids, hanswer, hnodup, hsorted, hmem⟩ := h.exists_drained_opened (h.matching s op key)
    refine ⟨ids, by rw [findRange_eq_opened hop]; exact hanswer, hnodup, hsorted, fun id => ?_⟩
    rw [hmem, mem_matching hasc]
    exact exists_congr fun k => and_congr_left fun _ => hhas k id
  · intro hone
    have hids : (h.entries s).IdsAscending := hentries ▸ Postings.idsAscending_ofPairs
    have hmatching := nodup_matching hasc hids
      (fun k k' id hk hk' => hone k k' id ((hhas k id).mp hk) ((hhas k' id).mp hk')) key
    obtain ⟨ids, hanswer, hnodup, -, hmem⟩ := h.exists_drained_opened (h.matching s .eq key)
    refine ⟨ids, hanswer, ?_⟩
    have hperm : (h.matching s .eq key).Perm ids :=
      (List.perm_ext_iff_of_nodup hmatching hnodup).mpr fun id => (hmem id).symm
    exact hperm.length_eq

/-- An integer that is rounded, a NaN, an integer zero and a negative zero under one index, read up to `2^53` as a
double. -/
theorem findRange_of_insertions_rounded :
    let pairs : List (Value × AtomId) :=
      [(.int 9007199254740993, 7), (.float (.ofInt 9007199254740992), 4), (.float .nan, 8), (.float .negativeZero, 5),
        (.int 0, 6)]
    let h : IndexHandle := ⟨0, "Number.value", .ranged, none⟩
    let s : Store := { Store.blank with contents := #[.ofPairs pairs] }
    let key : Value := .float (.ofInt 9007199254740992)
    (∃ ids, (h.findRange s .lte key >>= Snapshot.drained).answer = .ok ids ∧ ids.Nodup ∧
      (h.kind ≠ .hashed → ids.Pairwise (· < ·)) ∧
      ∀ id, id ∈ ids ↔ ∃ k, (k, id) ∈ pairs ∧ k.satisfies .lte key = true) ∧
    ∃ ids, (h.find s key >>= Snapshot.drained).answer = .ok ids ∧ h.countKey s key = ids.length := by
  intro pairs h s key
  have hone : ∀ k k' id, (k, id) ∈ pairs → (k', id) ∈ pairs → k = k' := by
    intro k k' id hk hk'
    have hnodup : (pairs.map Prod.snd).Nodup := by decide
    exact congrArg Prod.fst (List.inj_on_of_nodup_map hnodup hk hk' rfl)
  obtain ⟨hrange, hcount⟩ := @findRange_of_insertions h s pairs .lte key rfl fun _ => ⟨rfl, rfl⟩
  exact ⟨hrange, hcount hone⟩

/-! ### Handles that keep their word -/

/-- The index does what it says about itself: look-ups that are said to be in ascending order are handed out so, and
ranges can be looked up where the keys are said to be in order. -/
structure Conforms (h : IndexHandle) : Prop where
  inOrder : h.sortedPostings = true → ∀ s op key snap, (h.findRange s op key).answer = .ok snap → snap.arrangement = .sorted
  ranges : h.isOrdered = true → ∀ s op key, ∃ snap, (h.findRange s op key).answer = .ok snap

theorem view_of_findRange {snap : Snapshot} (hop : op.isRange = true) (h' : (h.findRange s op key).answer = .ok snap) :
    h.view = none := by
  unfold findRange at h'
  rw [hop] at h'
  rcases hview : h.view with _ | identity
  · rfl
  · simp [hview, Metered.fail] at h'

theorem arrangement_of_findRange {snap : Snapshot} (h' : (h.findRange s op key).answer = .ok snap) :
    snap.arrangement = if h.kind = .hashed then .hashed else .sorted := by
  have hopened : ∀ ids, (h.opened ids).answer = .ok snap →
      snap.arrangement = if h.kind = .hashed then .hashed else .sorted := by
    intro ids hids
    rw [answer_opened] at hids
    cases hids
    split <;> rfl
  unfold findRange at h'
  split at h'
  · exact hopened _ h'
  · split at h'
    · simp [Metered.fail] at h'
    · exact hopened _ h'

/-- Only wrappers can fail to conform: those of a hashed index, and those of one with its keys in order. -/
theorem conforms_iff : h.Conforms ↔ h.view = none ∨ h.kind = .sorted := by
  constructor
  · intro hconforms
    rcases hview : h.view with _ | identity
    · exact .inl rfl
    · refine .inr ?_
      cases hkind : h.kind with
      | sorted => rfl
      | hashed =>
        have hfound : (h.findRange .blank .eq .null).answer = _ := answer_opened
        have hsorted := hconforms.inOrder (by simp [sortedPostings, hview]) _ _ _ _ hfound
        simp [hkind, Snapshot.hashed] at hsorted
      | ranged =>
        obtain ⟨snap, hsnap⟩ := hconforms.ranges (by simp [isOrdered, hkind]) .blank .lt .null
        rw [view_of_findRange rfl hsnap] at hview
        simp at hview
  · intro h'
    constructor
    · intro hsorted s op key snap hsnap
      have hkind : h.kind ≠ .hashed := by
        rcases h' with hview | hkind
        · simpa [sortedPostings, hview] using hsorted
        · simp [hkind]
      rw [arrangement_of_findRange hsnap, if_neg hkind]
    · intro hordered s op key
      have hview : h.view = none := h'.resolve_right fun hkind => by simp [isOrdered, hkind] at hordered
      exact ⟨_, findRange_eq_opened (fun _ => ⟨hordered, hview⟩) ▸ answer_opened⟩

theorem conforms_of_view (hview : h.view = none) : h.Conforms := conforms_iff.mpr (.inl hview)

namespace Conforms

theorem sortedPostings_eq (hconforms : h.Conforms) : h.sortedPostings = (h.kind != .hashed) := by
  rcases conforms_iff.mp hconforms with hview | hkind
  · simp [sortedPostings, hview]
  · simp [sortedPostings, hkind]

theorem view_eq (hconforms : h.Conforms) (hordered : h.isOrdered = true) : h.view = none :=
  (conforms_iff.mp hconforms).resolve_right fun hkind => by simp [isOrdered, hkind] at hordered

end Conforms

end IndexHandle

end HyperQuery
