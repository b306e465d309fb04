import HyperQuery.Cursor.Snapshot
import HyperQuery.Proofs.Cursor.Protocol

/-!
# Cursors over snapshots yield the snapshot

What is to come is what lies behind the position (`Rests`). A sorted snapshot can be sought from a key on, a hashed one
can only be probed for exact handles. To a caller who does not seek, it does not matter how a snapshot is arranged
(`mirrors_alike`).
-/

namespace HyperQuery

namespace SnapshotCursor

/-- The open cursors over a snapshot, with the handles behind their positions. -/
inductive Rests (snap : Snapshot) : List AtomId → SnapshotCursor → Prop
  | before : Rests snap snap.items ⟨snap, .beforeFirst, false⟩
  | on {i : Nat} {x : AtomId} {rest : List AtomId} (h : snap.items.drop i = x :: rest) :
    Rests snap rest ⟨snap, .on i, false⟩
  | after : Rests snap [] ⟨snap, .afterLast, false⟩

variable {snap : Snapshot}

private theorem gives_land {i : Nat} {landing : Landing} {p : Position} :
    (land i landing).Gives ⟨snap, p, false⟩ landing ⟨snap, .on i, false⟩ := Move.Gives.update.bind .pure

private theorem rests_on {i : Nat} {x : AtomId} (h : snap.items[i]? = some x) :
    Rests snap (snap.items.drop (i + 1)) ⟨snap, .on i, false⟩ := by
  obtain ⟨hi, hx⟩ := List.getElem?_eq_some_iff.mp h
  exact .on (List.drop_eq_getElem_cons hi)

/-! ### Single steps -/

theorem gives_ensureOpen {p : Position} : ensureOpen.Gives ⟨snap, p, false⟩ () ⟨snap, p, false⟩ := ⟨rfl, rfl⟩

theorem fails_ensureOpen {p : Position} : ensureOpen.Fails ⟨snap, p, true⟩ .cursorClosed ⟨snap, p, true⟩ := ⟨rfl, rfl⟩

theorem fails_closed {α : Type} {f : Unit → Move SnapshotCursor α} {c : SnapshotCursor} (h : c.closed = true) :
    (ensureOpen >>= f).Fails c .cursorClosed c := by
  obtain ⟨snap, position, closed⟩ := c
  cases h
  exact SnapshotCursor.fails_ensureOpen.bind

theorem gives_next_some {p : Position} {i : Nat} {x : AtomId} (h : p.following? = some i)
    (hx : snap.items[i]? = some x) : SnapshotCursor.next.Gives ⟨snap, p, false⟩ (some x) ⟨snap, .on i, false⟩ := by
  refine gives_ensureOpen.bind (Move.Gives.read.bind ?_)
  simp only [h, items, hx]
  exact Move.Gives.update.bind .pure

theorem gives_next_end {p : Position} {i : Nat} (h : p.following? = some i) (hx : snap.items[i]? = none) :
    SnapshotCursor.next.Gives ⟨snap, p, false⟩ none ⟨snap, .afterLast, false⟩ := by
  refine gives_ensureOpen.bind (Move.Gives.read.bind ?_)
  simp only [h, items, hx]
  exact Move.Gives.update.bind .pure

theorem gives_next_none {p : Position} (h : p.following? = none) :
    SnapshotCursor.next.Gives ⟨snap, p, false⟩ none ⟨snap, p, false⟩ := by
  refine gives_ensureOpen.bind (Move.Gives.read.bind ?_)
  simp only [h]
  exact .pure

theorem gives_hasNext_some {p : Position} {i : Nat} (h : p.following? = some i) :
    SnapshotCursor.hasNext.Gives ⟨snap, p, false⟩ (decide (i < snap.items.length)) ⟨snap, p, false⟩ := by
  refine ⟨?_, rfl⟩
  show Except.ok (p.following?.any fun i => decide (i < snap.items.length)) = _
  rw [h]
  rfl

theorem gives_hasNext_none {p : Position} (h : p.following? = none) :
    SnapshotCursor.hasNext.Gives ⟨snap, p, false⟩ false ⟨snap, p, false⟩ := by
  refine ⟨?_, rfl⟩
  show Except.ok (p.following?.any fun i => decide (i < snap.items.length)) = _
  rw [h]
  rfl

theorem gives_hasNext_closed {c : SnapshotCursor} (h : c.closed = true) : SnapshotCursor.hasNext.Gives c false c := by
  refine ⟨?_, rfl⟩
  show Except.ok (!c.closed && _) = _
  rw [h]
  rfl

theorem gives_prev_some {p : Position} {i : Nat} (h : p.preceding? snap.items.length = some i) :
    SnapshotCursor.prev.Gives ⟨snap, p, false⟩ snap.items[i]? ⟨snap, .on i, false⟩ := by
  refine gives_ensureOpen.bind (Move.Gives.read.bind ?_)
  simp only [items, h]
  exact Move.Gives.update.bind .pure

theorem gives_prev_none {p : Position} (h : p.preceding? snap.items.length = none) :
    SnapshotCursor.prev.Gives ⟨snap, p, false⟩ none ⟨snap, .beforeFirst, false⟩ := by
  refine gives_ensureOpen.bind (Move.Gives.read.bind ?_)
  simp only [items, h]
  exact Move.Gives.update.bind .pure

private theorem draws_next {i : Nat} {p : Position} (h : p.following? = some i) :
    Draws SnapshotCursor.next (Rests snap) ⟨snap, p, false⟩ (snap.items.drop i) := by
  rcases hx : snap.items[i]? with _ | x
  · rw [List.drop_eq_nil_iff.mpr (List.getElem?_eq_none_iff.mp hx)]
    exact draws_nil (gives_next_end h hx) .after
  · obtain ⟨hi, hget⟩ := List.getElem?_eq_some_iff.mp hx
    have hdrop : snap.items.drop i = x :: snap.items.drop (i + 1) := by
      rw [← hget]
      exact List.drop_eq_getElem_cons hi
    rw [hdrop]
    exact draws_cons (gives_next_some h hx) (.on hdrop)

theorem Rests.eq {rest : List AtomId} {c : SnapshotCursor} (h : Rests snap rest c) :
    ∃ p, c = ⟨snap, p, false⟩ := by
  cases h with
  | before | on _ | after => exact ⟨_, rfl⟩

theorem current_on {i : Nat} {x : AtomId} {rest : List AtomId} (h : snap.items.drop i = x :: rest) :
    current ⟨snap, .on i, false⟩ = .ok x := by
  simp [current, Position.element?, items, AtomSet.getElem?_of_drop h]

theorem exists_of_current {p : Position} {x : AtomId} (h : current ⟨snap, p, false⟩ = .ok x) :
    ∃ i rest, p = .on i ∧ snap.items.drop i = x :: rest := by
  cases p with
  | beforeFirst | afterLast => simp [current, Position.element?] at h
  | on i =>
    rcases hx : snap.items[i]? with _ | y
    · simp [current, Position.element?, items, hx] at h
    · obtain rfl : y = x := by simpa [current, Position.element?, items, hx] using h
      obtain ⟨hi, hget⟩ := List.getElem?_eq_some_iff.mp hx
      exact ⟨i, _, rfl, hget ▸ List.drop_eq_getElem_cons hi⟩

/-- The search in an ascending list ends at the first handle that is not below the key. -/
theorem upFrom_eq_drop {ids : List AtomId} {key : AtomId} (h : ids.Pairwise (· < ·)) :
    AtomSet.upFrom key ids = ids.drop (ids.findIdx fun x => decide (key ≤ x)) := by
  rw [AtomSet.upFrom_eq_dropWhile h, List.dropWhile_eq_drop_findIdx_not]
  congr 2
  funext x
  rw [← decide_not]
  exact decide_eq_decide.mpr Nat.not_lt

/-- A key is found, or else the closest greater handle, where the list from the key on begins. -/
theorem gives_goTo_cons {p : Position} {key x : AtomId} {exact : Bool} {rest : List AtomId}
    (hsorted : snap.arrangement = .sorted) (h : snap.items.Pairwise (· < ·))
    (hup : AtomSet.upFrom key snap.items = x :: rest) (hx : x = key ∨ exact = false) :
    ∃ i, snap.items.drop i = x :: rest ∧
      (goTo key exact).Gives ⟨snap, p, false⟩ (if x = key then .found else .closest) ⟨snap, .on i, false⟩ := by
  rw [upFrom_eq_drop h] at hup
  refine ⟨_, hup, gives_ensureOpen.bind (Move.Gives.read.bind ?_)⟩
  simp only [hsorted, items, AtomSet.getElem?_of_drop hup, List.head?_cons]
  by_cases hxk : x = key
  · rw [if_pos hxk, if_pos hxk]
    exact gives_land
  · rw [if_neg hxk, if_neg hxk, if_neg (by simp [hx.resolve_left hxk])]
    exact gives_land

/-- Otherwise the cursor stays where it is. -/
theorem gives_goTo_absent {p : Position} {key : AtomId} {exact : Bool} (hsorted : snap.arrangement = .sorted)
    (h : snap.items.Pairwise (· < ·))
    (hup : ∀ x, (AtomSet.upFrom key snap.items).head? = some x → x ≠ key ∧ exact = true) :
    (goTo key exact).Gives ⟨snap, p, false⟩ .absent ⟨snap, p, false⟩ := by
  rw [upFrom_eq_drop h, List.head?_drop] at hup
  refine gives_ensureOpen.bind (Move.Gives.read.bind ?_)
  rcases hget : snap.items[snap.items.findIdx fun x => decide (key ≤ x)]? with _ | x
  · simp only [hsorted, items, hget]
    exact .pure
  · obtain ⟨hxk, hexact⟩ := hup x hget
    simp only [hsorted, items, hget, if_neg hxk, hexact, if_true]
    exact .pure

private theorem draws_seekFrom {p : Position} {rest : List AtomId} (key : AtomId) (hsorted : snap.arrangement = .sorted)
    (h : snap.items.Pairwise (· < ·)) (hR : Rests snap rest ⟨snap, p, false⟩) :
    Draws (navigation.seekFrom key) (Rests snap) ⟨snap, p, false⟩ (AtomSet.upFrom key snap.items) := by
  rcases hup : AtomSet.upFrom key snap.items with _ | ⟨x, rest⟩
  · exact draws_nil (Navigation.gives_seekFrom_absent (gives_goTo_absent hsorted h (by simp [hup]))) hR
  · obtain ⟨i, hdrop, hgoTo⟩ := gives_goTo_cons hsorted h hup (.inr rfl)
    exact draws_cons (Navigation.gives_seekFrom _ hgoTo (by split <;> simp) (current_on hdrop)) (.on hdrop)

/-- The cursor over a snapshot yields its handles. -/
theorem yields (snap : Snapshot) (hsorted : snap.arrangement = .sorted → snap.items.Pairwise (· < ·)) :
    navigation.forward.Yields snap.items (snap.arrangement == .sorted) (snap.arrangement != .unordered)
      (Rests snap) where
  pull {rest s} h := by
    cases h with
    | before => exact draws_next (i := 0) rfl
    | @on i x _ h =>
      rw [← AtomSet.drop_succ_of_drop h]
      exact draws_next rfl
    | after => exact draws_nil (Move.Gives.bind (t := ⟨snap, .afterLast, false⟩) ⟨rfl, rfl⟩ ⟨rfl, rfl⟩) .after
  rewind h := by
    obtain ⟨p, rfl⟩ := h.eq
    exact ⟨_, ⟨rfl, rfl⟩, .before⟩
  seek ho _ _ _ key h := by
    obtain ⟨p, rfl⟩ := h.eq
    have ho := beq_iff_eq.mp ho
    exact draws_seekFrom key ho (hsorted ho) h
  suffix h := by
    cases h with
    | before => exact List.suffix_refl _
    | on h => exact (List.suffix_cons _ _).trans (h ▸ List.drop_suffix _ _)
    | after => exact List.nil_suffix
  capacity h := by
    obtain ⟨p, rfl⟩ := h.eq
    exact Nat.le_refl _
  isOrdered h := by
    obtain ⟨p, rfl⟩ := h.eq
    rfl
  isRandomAccess h := by
    obtain ⟨p, rfl⟩ := h.eq
    rfl
  ascending ho := hsorted (beq_iff_eq.mp ho)

private theorem probes_hashed (h : snap.arrangement = .hashed) : navigation.Probes snap.items (Rests snap) := by
  intro rest s key hR
  obtain ⟨p, rfl⟩ := hR.eq
  rcases hi : snap.items.idxOf? key with _ | i
  · refine ⟨_, rest, .absent, gives_ensureOpen.bind (Move.Gives.read.bind ?_), hR, ?_⟩
    · simp only [h, items, hi]
      exact .pure
    · simp [List.idxOf?_eq_none_iff.mp hi]
  · have hx : snap.items[i]? = some key := by
      have := List.findIdx?_eq_some_iff_getElem.mp hi
      obtain ⟨hlt, hget, -⟩ := this
      rw [List.getElem?_eq_getElem hlt, ← beq_iff_eq.mp hget]
    refine ⟨_, _, .found, gives_ensureOpen.bind (Move.Gives.read.bind ?_), (rests_on hx), ?_⟩
    · simp only [h, items, hi]
      exact gives_land
    · simp [List.mem_of_getElem? hx]

private theorem probes_sorted (hsorted : snap.arrangement = .sorted) (h : snap.items.Pairwise (· < ·)) :
    navigation.Probes snap.items (Rests snap) := by
  intro rest s key hR
  obtain ⟨p, rfl⟩ := hR.eq
  by_cases hkey : key ∈ snap.items
  · obtain ⟨tail, hup⟩ := AtomSet.exists_upFrom_of_mem h hkey
    have hexact : key = key ∨ true = false := .inl rfl
    obtain ⟨i, hdrop, hgoTo⟩ := gives_goTo_cons hsorted h hup hexact
    rw [if_pos rfl] at hgoTo
    exact ⟨_, tail, .found, hgoTo, .on hdrop, by simp [hkey]⟩
  · have hup : ∀ x, (AtomSet.upFrom key snap.items).head? = some x → x ≠ key ∧ true = true := by
      rintro x hx
      refine ⟨?_, rfl⟩
      rintro rfl
      exact hkey (AtomSet.mem_upFrom.mp (List.mem_of_head? hx)).1
    exact ⟨_, rest, .absent, gives_goTo_absent hsorted h hup, hR, by simp [hkey]⟩

/-- The cursor over an arranged snapshot finds exactly its handles. -/
theorem probes (snap : Snapshot) (hsorted : snap.arrangement = .sorted → snap.items.Pairwise (· < ·))
    (h : snap.arrangement ≠ .unordered) : navigation.Probes snap.items (Rests snap) := by
  cases harrangement : snap.arrangement with
  | sorted => exact probes_sorted harrangement (hsorted harrangement)
  | hashed => exact probes_hashed harrangement
  | unordered => exact absurd harrangement h

/-- The cursor over a list that is not arranged refuses to be sought. -/
theorem fails_goTo (c : SnapshotCursor) (key : AtomId) (exact : Bool) (h : c.snapshot.arrangement = .unordered) :
    ∃ e, (goTo key exact).Fails c e c := by
  obtain ⟨snap, position, closed⟩ := c
  change snap.arrangement = .unordered at h
  cases closed with
  | true => exact ⟨.cursorClosed, fails_closed rfl⟩
  | false =>
    refine ⟨.unsupported .goToOnUnordered, gives_ensureOpen.fails_bind (Move.Fails.read ?_)⟩
    simp only [h]
    exact ⟨rfl, rfl⟩

/-- In a list that is not sorted no closest handle can be sought. -/
theorem not_gives_seekFrom {snap : Snapshot} {rest : List AtomId} {c d : SnapshotCursor} {key x : AtomId}
    (h : snap.arrangement ≠ .sorted) (hR : Rests snap rest c) : ¬ (navigation.seekFrom key).Gives c (some x) d := by
  intro hgives
  obtain ⟨landing, c', hgoTo, -⟩ := Move.gives_bind_iff.mp hgives
  obtain ⟨p, rfl⟩ := hR.eq
  have hfails : ∃ e, (goTo key false).Fails ⟨snap, p, false⟩ e ⟨snap, p, false⟩ := by
    cases harrangement : snap.arrangement with
    | sorted => exact absurd harrangement h
    | unordered => exact fails_goTo ⟨snap, p, false⟩ key false harrangement
    | hashed =>
      refine ⟨.unsupported .closestOnHashed, gives_ensureOpen.fails_bind (Move.Fails.read ?_)⟩
      simp only [harrangement]
      exact ⟨rfl, rfl⟩
  obtain ⟨e, hfails⟩ := hfails
  have hboth : Except.ok landing = .error e := hgoTo.1.symm.trans hfails.1
  cases hboth

/-! ### Staying open over the snapshot -/

/-- The open cursors over a snapshot. -/
def Over (snap : Snapshot) (c : SnapshotCursor) : Prop := ∃ p, c = ⟨snap, p, false⟩

theorem keeps_ensureOpen : ensureOpen.Keeps (Over snap) := fun _ => id

theorem keeps_moveTo {p : Position} : (moveTo p).Keeps (Over snap) := by
  rintro _ ⟨_, rfl⟩
  exact ⟨p, rfl⟩

theorem keeps_land {i : Nat} {landing : Landing} : (land i landing).Keeps (Over snap) :=
  .bind keeps_moveTo fun _ => .pure

theorem keeps_next : SnapshotCursor.next.Keeps (Over snap) := by
  refine .bind keeps_ensureOpen fun _ => .bind .read fun c => ?_
  split
  · exact .pure
  · split
    · exact .bind keeps_moveTo fun _ => .pure
    · exact .bind keeps_moveTo fun _ => .pure

theorem keeps_prev : SnapshotCursor.prev.Keeps (Over snap) := by
  refine .bind keeps_ensureOpen fun _ => .bind .read fun c => ?_
  split <;> exact .bind keeps_moveTo fun _ => .pure

theorem keeps_goTo {key : AtomId} {exact : Bool} : (SnapshotCursor.goTo key exact).Keeps (Over snap) := by
  refine .bind keeps_ensureOpen fun _ => .bind .read fun c => ?_
  cases c.snapshot.arrangement with
  | unordered => exact .fail
  | hashed =>
    simp only
    split
    · exact .fail
    · split
      · exact keeps_land
      · exact .pure
  | sorted =>
    simp only
    split
    · exact .pure
    · split
      · exact keeps_land
      · split
        · exact .pure
        · exact keeps_land

/-! ### The same list in another arrangement -/

/-- Two cursors at the same position of the same list, however it is arranged. -/
inductive Alike (items : List AtomId) : SnapshotCursor → SnapshotCursor → Prop
  | mk {snap snap' : Snapshot} {p : Position} {closed : Bool} (h : snap.items = items) (h' : snap'.items = items) :
    Alike items ⟨snap, p, closed⟩ ⟨snap', p, closed⟩

variable {ids : List AtomId} {c d : SnapshotCursor}

private theorem agree_next (h : Alike ids c d) :
    Move.Agree (Alike ids) SnapshotCursor.next SnapshotCursor.next c d := by
  obtain @⟨snap, snap', p, closed, h, h'⟩ := h
  cases closed with
  | true => exact fails_ensureOpen.bind.agree fails_ensureOpen.bind (.mk h h')
  | false =>
    rcases hi : p.following? with _ | i
    · exact (gives_next_none hi).agree (gives_next_none hi) (.mk h h')
    · rcases hx : ids[i]? with _ | x
      · exact (gives_next_end hi (by rw [h, hx])).agree (gives_next_end hi (by rw [h', hx])) (.mk h h')
      · exact (gives_next_some hi (by rw [h, hx])).agree (gives_next_some hi (by rw [h', hx])) (.mk h h')

private theorem agree_prev (h : Alike ids c d) :
    Move.Agree (Alike ids) SnapshotCursor.prev SnapshotCursor.prev c d := by
  obtain @⟨snap, snap', p, closed, h, h'⟩ := h
  cases closed with
  | true => exact fails_ensureOpen.bind.agree fails_ensureOpen.bind (.mk h h')
  | false =>
    rcases hi : p.preceding? ids.length with _ | i
    · exact (gives_prev_none (by rw [h, hi])).agree (gives_prev_none (by rw [h', hi])) (.mk h h')
    · have hmove := gives_prev_some (show p.preceding? snap.items.length = some i by rw [h, hi])
      have hmove' := gives_prev_some (show p.preceding? snap'.items.length = some i by rw [h', hi])
      rw [h] at hmove
      rw [h'] at hmove'
      exact hmove.agree hmove' (.mk h h')

theorem agree_moveTo (h : Alike ids c d) (p : Position) :
    Move.Agree (Alike ids) (do ensureOpen; moveTo p) (do ensureOpen; moveTo p) c d := by
  obtain @⟨snap, snap', q, closed, h, h'⟩ := h
  cases closed with
  | true => exact fails_ensureOpen.bind.agree fails_ensureOpen.bind (.mk h h')
  | false => exact (gives_ensureOpen.bind .update).agree (gives_ensureOpen.bind .update) (.mk h h')

/-- Unless a key is sought, the arrangement of the list does not show. -/
theorem mirrors_alike : navigation.Mirrors navigation (Alike ids) (·.seeks = false) where
  next _ _ _ h := agree_next h
  prev _ _ _ h := agree_prev h
  hasNext _ _ _ h := by
    cases h with
    | mk h h' => exact ⟨by simp only [navigation, hasNext, items, h, h'], .mk h h'⟩
  hasPrev _ _ _ h := by
    cases h with
    | mk h h' => exact ⟨by simp only [navigation, hasPrev, items, h, h'], .mk h h'⟩
  current h := by
    cases h with
    | mk h h' => simp only [navigation, current, items, h, h']
  goTo hq := by simp [Request.seeks] at hq
  beforeFirst _ _ _ h := agree_moveTo h _
  afterLast _ _ _ h := agree_moveTo h _
  close h := by
    cases h with
    | mk h h' => exact .mk h h'

end SnapshotCursor

end HyperQuery
