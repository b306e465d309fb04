import HyperQuery.Store.Postings

/-!
# What postings hold

A table of postings is determined by which handles it lists under which keys (`Postings.Has`). Inserting adds one pair
(`has_insert`) and keeps the keys strictly ascending (`ascending_insert`), and so insertions build the table of the pairs
inserted (`has_ofPairs`). In an ascending table the handles under a
key are all of them (`mem_ids`), and a span holds exactly the entries whose keys lie between its ends (`mem_span`).
-/

namespace HyperQuery

namespace Postings

variable {κ : Type}

/-- The handle is listed under the key. -/
def Has (p : Postings κ) (key : κ) (id : AtomId) : Prop := ∃ ids, (key, ids) ∈ p.entries ∧ id ∈ ids

@[simp] theorem not_has_empty {key : κ} {id : AtomId} : ¬ (empty : Postings κ).Has key id := by
  simp [Has, empty]

variable [Ord κ]

/-- The keys are strictly ascending. -/
def Ascending (p : Postings κ) : Prop := p.entries.Pairwise fun a b => compare a.1 b.1 = .lt

theorem ascending_empty : (empty : Postings κ).Ascending := List.Pairwise.nil

section Insert

/-- The keys after inserting are the new key and those there were. -/
private theorem key_of_mem_insertEntry {key : κ} {id : AtomId} {entries : List (κ × List AtomId)}
    {entry : κ × List AtomId} (h : entry ∈ insertEntry key id entries) :
    entry.1 = key ∨ ∃ f ∈ entries, f.1 = entry.1 := by
  induction entries with
  | nil =>
    simp only [insertEntry, List.mem_singleton] at h
    exact .inl (by rw [h])
  | cons f rest ih =>
    rcases hf : compare key f.1 with _ | _ | _ <;> simp only [insertEntry, hf, List.mem_cons] at h
    · rcases h with h | h | h
      · exact .inl (by rw [h])
      · exact .inr ⟨f, by simp, by rw [h]⟩
      · exact .inr ⟨entry, by simp [h], rfl⟩
    · rcases h with h | h
      · exact .inr ⟨f, by simp, by rw [h]⟩
      · exact .inr ⟨entry, by simp [h], rfl⟩
    · rcases h with h | h
      · exact .inr ⟨f, by simp, by rw [h]⟩
      · exact (ih h).imp_right fun ⟨f', hf', h⟩ => ⟨f', by simp [hf'], h⟩

private theorem has_insertEntry [Std.LawfulEqOrd κ] {key k : κ} {id x : AtomId} {entries : List (κ × List AtomId)} :
    (∃ ids, (k, ids) ∈ insertEntry key id entries ∧ x ∈ ids) ↔
      (∃ ids, (k, ids) ∈ entries ∧ x ∈ ids) ∨ (k = key ∧ x = id) := by
  induction entries with
  | nil =>
    constructor
    · rintro ⟨ids, hk, hx⟩
      simp only [insertEntry, List.mem_singleton, Prod.mk.injEq] at hk
      obtain ⟨rfl, rfl⟩ := hk
      exact .inr ⟨rfl, List.mem_singleton.mp hx⟩
    · rintro (⟨ids, hk, -⟩ | ⟨rfl, rfl⟩)
      · simp at hk
      · exact ⟨[x], by simp [insertEntry], by simp⟩
  | cons entry rest ih =>
    obtain ⟨l, ys⟩ := entry
    rcases hc : compare key l with _ | _ | _
    · simp only [insertEntry, hc, List.mem_cons, Prod.mk.injEq]
      constructor
      · rintro ⟨ids, ⟨rfl, rfl⟩ | h, hx⟩
        · exact .inr ⟨rfl, List.mem_singleton.mp hx⟩
        · exact .inl ⟨ids, h, hx⟩
      · rintro (⟨ids, h, hx⟩ | ⟨rfl, rfl⟩)
        · exact ⟨ids, .inr h, hx⟩
        · exact ⟨[x], .inl ⟨rfl, rfl⟩, by simp⟩
    · have hkey := Std.LawfulEqOrd.eq_of_compare hc
      subst hkey
      simp only [insertEntry, hc, List.mem_cons, Prod.mk.injEq]
      constructor
      · rintro ⟨ids, ⟨rfl, rfl⟩ | h, hx⟩
        · rcases AtomSet.mem_insert.mp hx with rfl | hx
          · exact .inr ⟨rfl, rfl⟩
          · exact .inl ⟨ys, .inl ⟨rfl, rfl⟩, hx⟩
        · exact .inl ⟨ids, .inr h, hx⟩
      · rintro (⟨ids, ⟨rfl, rfl⟩ | h, hx⟩ | ⟨rfl, rfl⟩)
        · exact ⟨_, .inl ⟨rfl, rfl⟩, AtomSet.mem_insert.mpr (.inr hx)⟩
        · exact ⟨ids, .inr h, hx⟩
        · exact ⟨_, .inl ⟨rfl, rfl⟩, AtomSet.mem_insert.mpr (.inl rfl)⟩
    · simp only [insertEntry, hc, List.mem_cons, Prod.mk.injEq]
      constructor
      · rintro ⟨ids, ⟨rfl, rfl⟩ | h, hx⟩
        · exact .inl ⟨_, .inl ⟨rfl, rfl⟩, hx⟩
        · exact (ih.mp ⟨ids, h, hx⟩).imp_left fun ⟨ids, h, hx⟩ => ⟨ids, .inr h, hx⟩
      · rintro (⟨ids, ⟨rfl, rfl⟩ | h, hx⟩ | h)
        · exact ⟨_, .inl ⟨rfl, rfl⟩, hx⟩
        · obtain ⟨ids, h, hx⟩ := ih.mpr (.inl ⟨ids, h, hx⟩)
          exact ⟨ids, .inr h, hx⟩
        · obtain ⟨ids, h, hx⟩ := ih.mpr (.inr h)
          exact ⟨ids, .inr h, hx⟩

theorem has_insert [Std.LawfulEqOrd κ] {p : Postings κ} {key k : κ} {id x : AtomId} :
    (p.insert key id).Has k x ↔ p.Has k x ∨ (k = key ∧ x = id) := has_insertEntry

variable [Std.TransOrd κ]

private theorem pairwise_insertEntry {key : κ} {id : AtomId} {entries : List (κ × List AtomId)}
    (h : entries.Pairwise fun a b => compare a.1 b.1 = .lt) :
    (insertEntry key id entries).Pairwise fun a b => compare a.1 b.1 = .lt := by
  induction entries with
  | nil => simp [insertEntry]
  | cons entry rest ih =>
    obtain ⟨l, ys⟩ := entry
    obtain ⟨hl, hrest⟩ := List.pairwise_cons.mp h
    rcases hc : compare key l with _ | _ | _
    · simp only [insertEntry, hc]
      refine List.pairwise_cons.mpr ⟨fun e he => ?_, h⟩
      rcases List.mem_cons.mp he with rfl | he
      · exact hc
      · exact Std.TransCmp.lt_trans hc (hl e he)
    · simp only [insertEntry, hc]
      exact List.pairwise_cons.mpr ⟨hl, hrest⟩
    · simp only [insertEntry, hc]
      refine List.pairwise_cons.mpr ⟨fun e he => ?_, ih hrest⟩
      rcases key_of_mem_insertEntry he with hkey | ⟨f, hf, hkey⟩
      · rw [hkey]
        exact Std.OrientedCmp.lt_of_gt hc
      · rw [← hkey]
        exact hl f hf

theorem ascending_insert {p : Postings κ} {key : κ} {id : AtomId} (h : p.Ascending) : (p.insert key id).Ascending :=
  pairwise_insertEntry h

end Insert

/-! ### Tables built by insertions -/

/-- Under every key the handles are strictly ascending. -/
def IdsAscending (p : Postings κ) : Prop := ∀ entry ∈ p.entries, entry.2.Pairwise (· < ·)

private theorem idsAscending_insertEntry {key : κ} {id : AtomId} {entries : List (κ × List AtomId)}
    (h : ∀ entry ∈ entries, entry.2.Pairwise (· < ·)) :
    ∀ entry ∈ insertEntry key id entries, entry.2.Pairwise (· < ·) := by
  induction entries with
  | nil => simp [insertEntry]
  | cons f rest ih =>
    obtain ⟨hf, hrest⟩ := List.forall_mem_cons.mp h
    rcases hc : compare key f.1 with _ | _ | _ <;> simp only [insertEntry, hc]
    · exact List.forall_mem_cons.mpr ⟨List.pairwise_singleton _ _, h⟩
    · exact List.forall_mem_cons.mpr ⟨AtomSet.sorted_insert hf, hrest⟩
    · exact List.forall_mem_cons.mpr ⟨hf, ih hrest⟩

theorem idsAscending_insert {p : Postings κ} {key : κ} {id : AtomId} (h : p.IdsAscending) :
    (p.insert key id).IdsAscending := idsAscending_insertEntry h

/-- The table after inserting the pairs one after the other. -/
def ofPairs (pairs : List (κ × AtomId)) : Postings κ := pairs.foldl (fun p pair => p.insert pair.1 pair.2) empty

section OfPairs

variable {pairs : List (κ × AtomId)}

/-- A property of tables that insertions keep holds of what they build. -/
private theorem ofPairs_induction {motive : Postings κ → Prop} (hempty : motive empty)
    (hinsert : ∀ p key id, motive p → motive (p.insert key id)) : motive (ofPairs pairs) := by
  have hfold : ∀ (rest : List (κ × AtomId)) (p : Postings κ), motive p →
      motive (rest.foldl (fun p pair => p.insert pair.1 pair.2) p) := by
    intro rest
    induction rest with
    | nil => exact fun p hp => hp
    | cons pair rest ih => exact fun p hp => ih _ (hinsert p pair.1 pair.2 hp)
  exact hfold pairs empty hempty

theorem idsAscending_ofPairs : (ofPairs pairs).IdsAscending :=
  ofPairs_induction (by simp [IdsAscending, empty]) fun _ _ _ => idsAscending_insert

theorem ascending_ofPairs [Std.TransOrd κ] : (ofPairs pairs).Ascending :=
  ofPairs_induction ascending_empty fun _ _ _ => ascending_insert

/-- Insertions list the pairs that were inserted, and no others. -/
theorem has_ofPairs [Std.LawfulEqOrd κ] {key : κ} {id : AtomId} : (ofPairs pairs).Has key id ↔ (key, id) ∈ pairs := by
  have hfold : ∀ (rest : List (κ × AtomId)) (p : Postings κ),
      (rest.foldl (fun p pair => p.insert pair.1 pair.2) p).Has key id ↔ p.Has key id ∨ (key, id) ∈ rest := by
    intro rest
    induction rest with
    | nil => simp
    | cons pair rest ih =>
      intro p
      rw [List.foldl_cons, ih, has_insert, or_assoc, List.mem_cons, Prod.ext_iff]
  rw [ofPairs, hfold]
  simp

end OfPairs

/-! ### Reading -/

section Read

variable [Std.TransOrd κ] {p : Postings κ}

theorem mem_ids [Std.LawfulEqOrd κ] (h : p.Ascending) {key : κ} {id : AtomId} : id ∈ p.ids key ↔ p.Has key id := by
  have hfind : ∀ entries : List (κ × List AtomId), entries.Pairwise (fun a b => compare a.1 b.1 = .lt) →
      ∀ ids, (key, ids) ∈ entries → (entries.find? fun entry => compare key entry.1 == .eq) = some (key, ids) := by
    intro entries hentries ids hmem
    induction entries with
    | nil => simp at hmem
    | cons e rest ih =>
      obtain ⟨he, hrest⟩ := List.pairwise_cons.mp hentries
      rcases List.mem_cons.mp hmem with rfl | hmem
      · rw [List.find?_cons_of_pos (by simp [Std.ReflCmp.compare_self])]
      · have hlt := he _ hmem
        rw [List.find?_cons_of_neg, ih hrest hmem]
        rw [Std.OrientedCmp.gt_of_lt hlt]
        simp
  unfold ids
  constructor
  · intro hid
    rcases hf : p.entries.find? fun entry => compare key entry.1 == .eq with _ | ⟨k, ids⟩
    · simp [hf] at hid
    · rw [hf] at hid
      have hk := List.find?_some hf
      simp only [beq_iff_eq] at hk
      rw [← Std.LawfulEqOrd.eq_of_compare hk] at hf
      exact ⟨ids, List.mem_of_find?_eq_some hf, hid⟩
  · rintro ⟨ids, hmem, hid⟩
    rw [hfind p.entries h ids hmem]
    exact hid

private theorem mem_dropWhile {α : Type} {R : α → α → Prop} {drop : α → Bool} {xs : List α} (hxs : xs.Pairwise R)
    (hmono : ∀ a b, R a b → drop b = true → drop a = true) {x : α} :
    x ∈ xs.dropWhile drop ↔ x ∈ xs ∧ drop x = false := by
  induction xs with
  | nil => simp
  | cons y ys ih =>
    obtain ⟨hy, hys⟩ := List.pairwise_cons.mp hxs
    rcases hd : drop y with _ | _
    · rw [List.dropWhile_cons_of_neg (by simp [hd])]
      refine ⟨fun hx => ⟨hx, ?_⟩, And.left⟩
      rcases List.mem_cons.mp hx with rfl | hx
      · exact hd
      · by_cases h : drop x = true
        · rw [hmono y x (hy x hx) h] at hd
          exact absurd hd (by simp)
        · simpa using h
    · rw [List.dropWhile_cons_of_pos hd, ih hys]
      refine ⟨fun h => ⟨by simp [h.1], h.2⟩, fun h => ⟨?_, h.2⟩⟩
      rcases List.mem_cons.mp h.1 with rfl | hx
      · rw [hd] at h
        exact absurd h.2 (by simp)
      · exact hx

private theorem mem_takeWhile {α : Type} {R : α → α → Prop} {keep : α → Bool} {xs : List α} (hxs : xs.Pairwise R)
    (hmono : ∀ a b, R a b → keep b = true → keep a = true) {x : α} :
    x ∈ xs.takeWhile keep ↔ x ∈ xs ∧ keep x = true := by
  induction xs with
  | nil => simp
  | cons y ys ih =>
    obtain ⟨hy, hys⟩ := List.pairwise_cons.mp hxs
    rcases hd : keep y with _ | _
    · rw [List.takeWhile_cons_of_neg (by simp [hd])]
      simp only [List.not_mem_nil, false_iff, not_and]
      intro hx hk
      rcases List.mem_cons.mp hx with rfl | hx
      · rw [hd] at hk
        exact absurd hk (by simp)
      · rw [hmono y x (hy x hx) hk] at hd
        exact absurd hd (by simp)
    · rw [List.takeWhile_cons_of_pos hd, List.mem_cons, ih hys]
      constructor
      · rintro (rfl | h)
        · exact ⟨by simp, hd⟩
        · exact ⟨by simp [h.1], h.2⟩
      · rintro ⟨hx, hk⟩
        exact (List.mem_cons.mp hx).imp_right fun hx => ⟨hx, hk⟩

private theorem isBelow_of_lt {lower : Bound κ} {a b : κ} (hab : compare a b = .lt) (ha : lower.isBelow a = true) :
    lower.isBelow b = true := by
  cases lower with
  | unbounded => rfl
  | included lo =>
    simp only [Bound.isBelow, bne_iff_ne, ne_eq] at ha ⊢
    intro hgt
    exact ha (Std.TransCmp.gt_trans hgt (Std.OrientedCmp.gt_of_lt hab))
  | excluded lo =>
    simp only [Bound.isBelow, beq_iff_eq] at ha ⊢
    exact Std.TransCmp.lt_trans ha hab

private theorem isAbove_of_lt {upper : Bound κ} {a b : κ} (hab : compare a b = .lt) (hb : upper.isAbove b = true) :
    upper.isAbove a = true := by
  cases upper with
  | unbounded => rfl
  | included hi =>
    simp only [Bound.isAbove, bne_iff_ne, ne_eq] at hb ⊢
    intro hgt
    exact hb (Std.TransCmp.gt_trans (Std.OrientedCmp.gt_of_lt hab) hgt)
  | excluded hi =>
    simp only [Bound.isAbove, beq_iff_eq] at hb ⊢
    exact Std.TransCmp.lt_trans hab hb

/-- A span holds the entries between its ends. -/
theorem mem_span (h : p.Ascending) {lower upper : Bound κ} {entry : κ × List AtomId} :
    entry ∈ p.span lower upper ↔
      entry ∈ p.entries ∧ lower.isBelow entry.1 = true ∧ upper.isAbove entry.1 = true := by
  unfold span
  have hdrop : ∀ a b : κ × List AtomId, compare a.1 b.1 = .lt → (!lower.isBelow b.1) = true →
      (!lower.isBelow a.1) = true := by
    intro a b hab hb
    rw [Bool.not_eq_true'] at hb ⊢
    by_cases ha : lower.isBelow a.1 = true
    · rw [isBelow_of_lt hab ha] at hb
      exact absurd hb (by simp)
    · simpa using ha
  have hdropped := h.sublist (List.dropWhile_sublist fun entry => !lower.isBelow entry.1)
  rw [mem_takeWhile hdropped fun a b hab hb => isAbove_of_lt hab hb, mem_dropWhile h hdrop, Bool.not_eq_false', and_assoc]

end Read

end Postings

end HyperQuery
