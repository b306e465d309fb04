import HyperQuery.Proofs.Cursor.Protocol
import HyperQuery.Proofs.Cursor.Snapshot

/-!
# Windows on a list

A buffer over a list goes backward only as far as the place it was repositioned at last. So from outside it is a cursor
over a window, which is the end of the list from that place on (`Window.navigation`). Going to a key makes the window
begin at the element found, and going before the first element makes the whole list the window again. Going to a key in
vain leaves the element that the cursor stands on, but makes the window begin there (`Window.settled`).

As long as nothing is sought, the window is the whole list, and the cursor is one over a snapshot of it
(`mirrors_snapshot`). If only what lies ahead is asked for, it does not matter where the window begins, and an ascending
list shows as its sorted snapshot (`mirrors_sorted`).
-/

namespace HyperQuery

namespace Window

open SnapshotCursor (ensureOpen)
open AtomSet (upFrom getElem?_of_drop drop_succ_of_drop)

/-- What remains of a cursor once a key has been sought in vain. -/
def settled (items : List AtomId) (c : SnapshotCursor) : SnapshotCursor :=
  match c.position with
  | .beforeFirst => { c with snapshot := .unordered items }
  | .on i => { c with snapshot := .unordered (c.items.drop i), position := .on 0 }
  | .afterLast => { c with snapshot := .unordered [] }

/-- Makes the given list the window, and stands on its first element. -/
def beginAt (window : List AtomId) : Move SnapshotCursor Unit :=
  Move.update fun c => { c with snapshot := .unordered window, position := .on 0 }

def goTo (items : List AtomId) (key : AtomId) (exact : Bool) : Move SnapshotCursor Landing := do
  ensureOpen
  let c ← Move.read
  if c.position.element? c.items == some key then return .found
  else
    match upFrom key items with
    | x :: rest =>
      if x = key then
        beginAt (x :: rest)
        return .found
      else if !exact then
        beginAt (x :: rest)
        return .closest
      else
        Move.update (settled items)
        return .absent
    | [] =>
      Move.update (settled items)
      return .absent

/-- The moves of a cursor over a window on the items. -/
def navigation (items : List AtomId) (ordered seekable : Bool) : Navigation SnapshotCursor :=
  { SnapshotCursor.navigation with
    isOrdered := fun _ => ordered
    isRandomAccess := fun _ => seekable
    goTo := goTo items
    beforeFirst := do
      ensureOpen
      Move.update fun c => { c with snapshot := .unordered items, position := .beforeFirst }
    capacity := fun _ => items.length }

variable {items window : List AtomId} {position : Position} {key x : AtomId} {exact : Bool}

/-! ### How a key is sought -/

theorem gives_goTo_standing (h : position.element? window = some key) :
    (goTo items key exact).Gives ⟨.unordered window, position, false⟩ .found ⟨.unordered window, position, false⟩ := by
  refine SnapshotCursor.gives_ensureOpen.bind (Move.Gives.read.bind ?_)
  have hat : (position.element? window == some key) = true := by simp [h]
  simp only [SnapshotCursor.items, Snapshot.unordered, hat, if_true]
  exact .pure

theorem gives_goTo_cons {rest : List AtomId} (h : position.element? window ≠ some key)
    (hup : upFrom key items = x :: rest) (hx : x = key ∨ exact = false) :
    (goTo items key exact).Gives ⟨.unordered window, position, false⟩ (if x = key then .found else .closest)
      ⟨.unordered (x :: rest), .on 0, false⟩ := by
  refine SnapshotCursor.gives_ensureOpen.bind (Move.Gives.read.bind ?_)
  have hat : (position.element? window == some key) = false := by simpa using h
  simp only [SnapshotCursor.items, Snapshot.unordered, hat, Bool.false_eq_true, if_false, hup]
  by_cases hxk : x = key
  · rw [if_pos hxk, if_pos hxk]
    exact Move.Gives.update.bind .pure
  · rw [if_neg hxk, if_neg hxk, if_pos (by simp [hx.resolve_left hxk])]
    exact Move.Gives.update.bind .pure

theorem gives_goTo_absent (h : position.element? window ≠ some key)
    (hup : ∀ x, (upFrom key items).head? = some x → x ≠ key ∧ exact = true) :
    (goTo items key exact).Gives ⟨.unordered window, position, false⟩ .absent
      (settled items ⟨.unordered window, position, false⟩) := by
  refine SnapshotCursor.gives_ensureOpen.bind (Move.Gives.read.bind ?_)
  have hat : (position.element? window == some key) = false := by simpa using h
  simp only [SnapshotCursor.items, Snapshot.unordered, hat, Bool.false_eq_true, if_false]
  rcases hkey : upFrom key items with _ | ⟨x, rest⟩
  · exact Move.Gives.update.bind .pure
  · obtain ⟨hxk, hexact⟩ := hup x (by rw [hkey]; rfl)
    simp only [if_neg hxk, hexact, Bool.not_true, Bool.false_eq_true, if_false]
    exact Move.Gives.update.bind .pure

/-- A key is among the items, or a greater one is taken in its place, or the search is in vain. -/
theorem cases_upFrom (items : List AtomId) (key : AtomId) (exact : Bool) :
    (∃ x rest, upFrom key items = x :: rest ∧ (x = key ∨ exact = false)) ∨
      ∀ x, (upFrom key items).head? = some x → x ≠ key ∧ exact = true := by
  rcases hup : upFrom key items with _ | ⟨x, rest⟩
  · exact .inr (by simp)
  · by_cases hx : x = key ∨ exact = false
    · exact .inl ⟨x, rest, rfl, hx⟩
    · refine .inr fun y hy => ?_
      cases hy
      simpa using hx

/-! ### What a window yields -/

/-- The open cursors over a window on the items, with what lies behind their positions. -/
inductive Rests (items : List AtomId) : List AtomId → SnapshotCursor → Prop
  | mk {window rest : List AtomId} {c : SnapshotCursor} (hwindow : window <:+ items)
    (h : SnapshotCursor.Rests (.unordered window) rest c) : Rests items rest c

private theorem rests_settled {rest : List AtomId} {c : SnapshotCursor} (h : Rests items rest c) :
    ∃ rest', Rests items rest' (settled items c) := by
  obtain ⟨hwindow, h⟩ := h
  cases h with
  | before => exact ⟨_, .mk (List.suffix_refl _) .before⟩
  | on h => exact ⟨_, .mk ((List.drop_suffix _ _).trans hwindow) (.on h)⟩
  | after => exact ⟨_, .mk List.nil_suffix .after⟩

private theorem draws_seekFrom {ordered seekable : Bool} (h : items.Pairwise (· < ·)) {rest : List AtomId}
    {c : SnapshotCursor} (hR : Rests items rest c) :
    Draws ((navigation items ordered seekable).seekFrom key) (Rests items) c (upFrom key items) := by
  obtain @⟨window, rest, c, hwindow, hrest⟩ := hR
  obtain ⟨position, rfl⟩ := hrest.eq
  by_cases hat : position.element? window = some key
  · -- the cursor stands on the key already
    cases hrest with
    | before | after => simp [Position.element?] at hat
    | @on i x _ hdrop =>
      have hxk : x = key := Option.some.inj ((getElem?_of_drop hdrop).symm.trans hat)
      subst hxk
      rw [AtomSet.upFrom_head h ((hdrop ▸ List.drop_suffix _ _).trans hwindow)]
      refine draws_cons (Navigation.gives_seekFrom .found (gives_goTo_standing hat) (by simp) ?_)
        (.mk hwindow (.on hdrop))
      simp [navigation, SnapshotCursor.navigation, SnapshotCursor.current, SnapshotCursor.items, Snapshot.unordered, hat]
  · rcases cases_upFrom items key false with ⟨x, rest, hup, hx⟩ | hup
    · rw [hup]
      have hsuffix : x :: rest <:+ items := hup ▸ AtomSet.upFrom_suffix h
      exact draws_cons (Navigation.gives_seekFrom _ (gives_goTo_cons hat hup hx) (by split <;> simp) rfl)
        (.mk hsuffix (.on (i := 0) rfl))
    · have hnil : upFrom key items = [] := by
        rcases hkey : upFrom key items with _ | ⟨x, rest⟩
        · rfl
        · simpa using (hup x (by rw [hkey]; rfl)).2
      rw [hnil]
      obtain ⟨rest', hsettled⟩ := rests_settled (.mk hwindow hrest)
      exact draws_nil (Navigation.gives_seekFrom_absent (gives_goTo_absent hat hup)) hsettled

/-- A cursor over a window on the items yields the items. -/
theorem yields {ordered seekable : Bool} (h : ordered = true → items.Pairwise (· < ·)) :
    (navigation items ordered seekable).forward.Yields items ordered seekable (Rests items) where
  pull := fun ⟨hwindow, hrest⟩ => ((SnapshotCursor.yields _ (by simp [Snapshot.unordered])).pull hrest).imp (.mk hwindow)
  rewind := by
    rintro rest c ⟨hwindow, hrest⟩
    obtain ⟨position, rfl⟩ := hrest.eq
    exact ⟨_, SnapshotCursor.gives_ensureOpen.bind .update, .mk (List.suffix_refl _) .before⟩
  seek ho _ _ _ key hR := draws_seekFrom (h ho) hR
  suffix := fun ⟨hwindow, hrest⟩ =>
    ((SnapshotCursor.yields _ (by simp [Snapshot.unordered])).suffix hrest).trans hwindow
  capacity _ := Nat.le_refl _
  isOrdered _ := rfl
  isRandomAccess _ := rfl
  ascending := h

/-- A cursor over a window on ascending items finds exactly the items. -/
theorem probes {ordered seekable : Bool} (h : items.Pairwise (· < ·)) :
    (navigation items ordered seekable).Probes items (Rests items) := by
  intro rest c key hR
  obtain @⟨window, rest, c, hwindow, hrest⟩ := hR
  obtain ⟨position, rfl⟩ := hrest.eq
  by_cases hat : position.element? window = some key
  · have hkey : key ∈ items := by
      cases position with
      | beforeFirst | afterLast => simp [Position.element?] at hat
      | on i => exact hwindow.subset (List.mem_of_getElem? hat)
    exact ⟨_, rest, .found, gives_goTo_standing hat, .mk hwindow hrest, by simp [hkey]⟩
  · rcases cases_upFrom items key true with ⟨x, tail, hup, hx⟩ | hup
    · obtain rfl : x = key := hx.resolve_right (by simp)
      have hkey : x ∈ upFrom x items := by simp [hup]
      have hgoTo := gives_goTo_cons hat hup hx
      rw [if_pos rfl] at hgoTo
      exact ⟨_, tail, .found, hgoTo, .mk (hup ▸ AtomSet.upFrom_suffix h) (.on (i := 0) rfl),
        by simp [(AtomSet.mem_upFrom.mp hkey).1]⟩
    · obtain ⟨rest', hsettled⟩ := rests_settled (.mk hwindow hrest)
      have hkey : key ∉ items := AtomSet.not_mem_of_head?_upFrom_ne h fun x hx => (hup x hx).1
      exact ⟨_, rest', .absent, gives_goTo_absent hat hup, hsettled, by simp [hkey]⟩

/-! ### Windows and snapshots -/

/-- Unless a key is sought, the window stays the whole list. -/
theorem mirrors_snapshot {ordered seekable : Bool} :
    (navigation items ordered seekable).Mirrors SnapshotCursor.navigation (SnapshotCursor.Alike items)
      (·.seeks = false) :=
  { SnapshotCursor.mirrors_alike with
    goTo := fun hq => by simp [Request.seeks] at hq
    beforeFirst := by
      rintro - c d ⟨h, h'⟩
      rename_i position closed
      cases closed with
      | true => exact (SnapshotCursor.fails_ensureOpen.bind).agree SnapshotCursor.fails_ensureOpen.bind (.mk h h')
      | false =>
        exact (SnapshotCursor.gives_ensureOpen.bind .update).agree (SnapshotCursor.gives_ensureOpen.bind .update)
          (.mk rfl h') }

/-- A cursor over a window on the items and one over all of them, with the same before them. -/
inductive Abreast (items : List AtomId) : SnapshotCursor → SnapshotCursor → Prop
  | before : Abreast items ⟨.unordered items, .beforeFirst, false⟩ ⟨.ofSorted items, .beforeFirst, false⟩
  | on {window rest : List AtomId} {i j : Nat} {x : AtomId} (h : window.drop i = x :: rest)
    (h' : items.drop j = x :: rest) : Abreast items ⟨.unordered window, .on i, false⟩ ⟨.ofSorted items, .on j, false⟩
  | after {window : List AtomId} :
    Abreast items ⟨.unordered window, .afterLast, false⟩ ⟨.ofSorted items, .afterLast, false⟩
  | closed {c d : SnapshotCursor} (h : c.closed = true) (h' : d.closed = true) : Abreast items c d

/-- Two cursors take a step forward together where the same lies ahead of both. -/
private theorem agree_step {p p' : Position} {i j : Nat} (hp : p.following? = some i) (hp' : p'.following? = some j)
    (h : window.drop i = items.drop j) :
    Move.Agree (Abreast items) SnapshotCursor.next SnapshotCursor.next ⟨.unordered window, p, false⟩
      ⟨.ofSorted items, p', false⟩ := by
  rcases hrest : items.drop j with _ | ⟨x, rest⟩
  · rw [hrest] at h
    exact (SnapshotCursor.gives_next_end hp (getElem?_of_drop h)).agree
      (SnapshotCursor.gives_next_end hp' (getElem?_of_drop hrest)) .after
  · rw [hrest] at h
    exact (SnapshotCursor.gives_next_some hp (getElem?_of_drop h)).agree
      (SnapshotCursor.gives_next_some hp' (getElem?_of_drop hrest)) (.on h hrest)

variable {c d : SnapshotCursor}

private theorem agree_next (h : Abreast items c d) :
    Move.Agree (Abreast items) SnapshotCursor.next SnapshotCursor.next c d := by
  cases h with
  | before => exact agree_step rfl rfl rfl
  | on h h' => exact agree_step rfl rfl ((drop_succ_of_drop h).trans (drop_succ_of_drop h').symm)
  | after => exact (SnapshotCursor.gives_next_none rfl).agree (SnapshotCursor.gives_next_none rfl) .after
  | closed h h' => exact (SnapshotCursor.fails_closed h).agree (SnapshotCursor.fails_closed h') (.closed h h')

private theorem agree_hasNext (h : Abreast items c d) :
    Move.Agree (Abreast items) SnapshotCursor.hasNext SnapshotCursor.hasNext c d := by
  cases h with
  | before => exact (SnapshotCursor.gives_hasNext_some rfl).agree (SnapshotCursor.gives_hasNext_some rfl) .before
  | @on window rest i j x h h' =>
    have hlength : i + 1 < window.length ↔ j + 1 < items.length := by
      rw [← Nat.not_le, ← Nat.not_le, ← List.drop_eq_nil_iff, ← List.drop_eq_nil_iff, drop_succ_of_drop h, drop_succ_of_drop h']
    refine Move.Gives.agree ?_ (SnapshotCursor.gives_hasNext_some rfl) (.on h h')
    show SnapshotCursor.hasNext.Gives _ (decide (j + 1 < items.length)) _
    rw [← decide_eq_decide.mpr hlength]
    exact SnapshotCursor.gives_hasNext_some rfl
  | after => exact (SnapshotCursor.gives_hasNext_none rfl).agree (SnapshotCursor.gives_hasNext_none rfl) .after
  | closed h h' =>
    exact (SnapshotCursor.gives_hasNext_closed h).agree (SnapshotCursor.gives_hasNext_closed h') (.closed h h')

private theorem current_eq (h : Abreast items c d) : SnapshotCursor.current c = SnapshotCursor.current d := by
  cases h with
  | before | after => rfl
  | on h h' =>
    simp [SnapshotCursor.current, Position.element?, SnapshotCursor.items, Snapshot.unordered, Snapshot.ofSorted,
      getElem?_of_drop h, getElem?_of_drop h']
  | closed h h' => simp [SnapshotCursor.current, h, h']

/-- A search in vain does not move a cursor away from the one that has the same before it. -/
theorem abreast_settled (h : Abreast items c d) : Abreast items (settled items c) d := by
  cases h with
  | before => exact .before
  | on h h' => exact .on (i := 0) h h'
  | after => exact .after
  | closed h h' =>
    refine .closed ?_ h'
    unfold settled
    split <;> exact h

private theorem Abreast.fields (h : Abreast items c d) :
    (∃ window p p', c = ⟨.unordered window, p, false⟩ ∧ d = ⟨.ofSorted items, p', false⟩) ∨
      c.closed = true ∧ d.closed = true := by
  cases h with
  | before | on _ _ | after => exact .inl ⟨_, _, _, rfl, rfl⟩
  | closed h h' => exact .inr ⟨h, h'⟩

private theorem agree_goTo (hitems : items.Pairwise (· < ·)) (h : Abreast items c d) :
    Move.Agree (Abreast items) (goTo items key exact) (SnapshotCursor.goTo key exact) c d := by
  have hsorted : (Snapshot.ofSorted items).arrangement = .sorted := rfl
  rcases h.fields with ⟨window, p, p', rfl, rfl⟩ | ⟨hc, hd⟩
  · by_cases hat : p.element? window = some key
    · -- the window's cursor stays where it is, and the other one finds the element it stands on
      cases h with
      | before | after => simp [Position.element?] at hat
      | @on _ rest i j x h h' =>
        have hxk : x = key := Option.some.inj ((getElem?_of_drop h).symm.trans hat)
        subst hxk
        have hup : upFrom x items = x :: rest := AtomSet.upFrom_head hitems (h' ▸ List.drop_suffix _ _)
        have hx : x = x ∨ exact = false := .inl rfl
        obtain ⟨k, hdrop, hgoTo⟩ := SnapshotCursor.gives_goTo_cons (p := .on j) hsorted hitems hup hx
        rw [if_pos rfl] at hgoTo
        exact (gives_goTo_standing hat).agree hgoTo (.on h hdrop)
      | closed h _ => simp at h
    · rcases cases_upFrom items key exact with ⟨x, rest, hup, hx⟩ | hup
      · obtain ⟨k, hdrop, hgoTo⟩ := SnapshotCursor.gives_goTo_cons (p := p') hsorted hitems hup hx
        exact (gives_goTo_cons hat hup hx).agree hgoTo (.on (i := 0) rfl hdrop)
      · exact (gives_goTo_absent hat hup).agree (SnapshotCursor.gives_goTo_absent rfl hitems hup) (abreast_settled h)
  · exact (SnapshotCursor.fails_closed hc).agree (SnapshotCursor.fails_closed hd) (.closed hc hd)

/-- As far as what lies ahead is concerned, it does not matter where the window begins. -/
theorem mirrors_sorted {ordered seekable : Bool} (hitems : items.Pairwise (· < ·)) :
    (navigation items ordered seekable).Mirrors SnapshotCursor.navigation (Abreast items) (·.looksBack = false) where
  next _ _ _ h := agree_next h
  prev hq := by simp [Request.looksBack] at hq
  hasNext _ _ _ h := agree_hasNext h
  hasPrev hq := by simp [Request.looksBack] at hq
  current h := current_eq h
  goTo _ _ _ h := agree_goTo hitems h
  beforeFirst _ _ _ h := by
    rcases h.fields with ⟨window, p, p', rfl, rfl⟩ | ⟨hc, hd⟩
    · exact (SnapshotCursor.gives_ensureOpen.bind .update).agree (SnapshotCursor.gives_ensureOpen.bind .update) .before
    · exact (SnapshotCursor.fails_closed hc).agree (SnapshotCursor.fails_closed hd) (.closed hc hd)
  afterLast _ _ _ h := by
    rcases h.fields with ⟨window, p, p', rfl, rfl⟩ | ⟨hc, hd⟩
    · exact (SnapshotCursor.gives_ensureOpen.bind .update).agree (SnapshotCursor.gives_ensureOpen.bind .update) .after
    · exact (SnapshotCursor.fails_closed hc).agree (SnapshotCursor.fails_closed hd) (.closed hc hd)
  close _ := .closed rfl rfl

end Window

end HyperQuery
