import HyperQuery.Proofs.Cursor.Outcomes
import HyperQuery.Proofs.Cursor.Reading

/-!
# What cursors are confined to

However an open cursor is moved, and whether or not that fails, it finds nothing but the handles of a list that is no
longer than the capacity it was opened with, and its capacity does not fall below that (`Blueprint.exists_confined`). The
list need not be what the cursor yields: handles may be left out, or found again.
-/

namespace HyperQuery

variable {σ τ : Type} {P Q : AtomId → Prop} {x : AtomId}

theorem Position.mem_of_element? {items : List AtomId} {position : Position} (h : position.element? items = some x) :
    x ∈ items := by
  cases position with
  | on i => exact List.mem_of_getElem? h
  | beforeFirst | afterLast => cases h

/-- What is found, if anything is, is in `P`. -/
def FoundIn (P : AtomId → Prop) (found : Option AtomId) : Prop := ∀ x ∈ found, P x

theorem foundIn_none : FoundIn P none := nofun

theorem foundIn_some : FoundIn P (some x) ↔ P x := by simp [FoundIn]

/-- Moves forward, searches and returns to the start keep `I`, whether or not they fail, what they find is in `P`, and
there is at least so much room. -/
structure Navigation.Confined (n : Navigation σ) (I : σ → Prop) (P : AtomId → Prop) (room : Nat) : Prop where
  next : n.next.Ensures I (FoundIn P)
  seekFrom : ∀ key, (n.seekFrom key).Ensures I (FoundIn P)
  beforeFirst : n.beforeFirst.Keeps I
  le_capacity : ∀ {s}, I s → room ≤ n.capacity s

/-- Pulling, seeking and rewinding keep `I`, whether or not they fail, what they find is in `P`, and there is at least so
much room. -/
structure Producer.Confined (p : Producer σ) (I : σ → Prop) (P : AtomId → Prop) (room : Nat) : Prop where
  pull : p.pull.Ensures I (FoundIn P)
  seek : ∀ key, (p.seek key).Ensures I (FoundIn P)
  rewind : p.rewind.Keeps I
  le_capacity : ∀ {s}, I s → room ≤ p.capacity s

namespace Navigation.Confined

variable {n : Navigation σ} {I : σ → Prop} {room : Nat}

theorem imp (h : n.Confined I P room) (hPQ : ∀ x, P x → Q x) : n.Confined I Q room where
  next := h.next.imp fun _ hfound x hx => hPQ x (hfound x hx)
  seekFrom key := (h.seekFrom key).imp fun _ hfound x hx => hPQ x (hfound x hx)
  beforeFirst := h.beforeFirst
  le_capacity := h.le_capacity

theorem forwardOnly (h : n.Confined I P room) : n.forwardOnly.Confined I P room where
  next := h.next
  seekFrom _ := .bind .fail fun _ (himpossible : False) => himpossible.elim
  beforeFirst := h.beforeFirst
  le_capacity := h.le_capacity

/-- A search that keeps the property, from a place where it leads to handles in `P` only. -/
theorem ensures_seekFrom {key : AtomId} (hgoTo : (n.goTo key false).Keeps I)
    (hcurrent : ∀ s x, I s → n.current s = .ok x → P x) : (n.seekFrom key).Ensures I (FoundIn P) := by
  refine .bind hgoTo.ensures fun landing _ => ?_
  cases landing with
  | absent => exact .pure foundIn_none
  | found | closest =>
    exact .bind .read fun s hs => .bind (.lift fun x hx => hcurrent s x hs hx) fun x hx => .pure (foundIn_some.mpr hx)

end Navigation.Confined

/-! ### Snapshots -/

namespace SnapshotCursor

variable {snap : Snapshot}

theorem confined : navigation.Confined (Over snap) (· ∈ snap.items) snap.items.length where
  next := by
    refine .bind keeps_ensureOpen.ensures fun _ _ => .bind .read fun c hc => ?_
    split
    · exact .pure foundIn_none
    · split
      · rename_i x hx
        have hmem : x ∈ c.items := List.mem_of_getElem? hx
        obtain ⟨p, rfl⟩ := hc
        exact .bind keeps_moveTo.ensures fun _ _ => .pure (foundIn_some.mpr hmem)
      · exact .bind keeps_moveTo.ensures fun _ _ => .pure foundIn_none
  seekFrom key := by
    refine Navigation.Confined.ensures_seekFrom keeps_goTo fun c x hc hx => ?_
    obtain ⟨p, rfl⟩ := hc
    obtain ⟨i, rest, -, hdrop⟩ := exists_of_current hx
    exact List.mem_of_mem_drop (hdrop ▸ List.mem_cons_self)
  beforeFirst := .bind keeps_ensureOpen fun _ => keeps_moveTo
  le_capacity {c} hc := by
    obtain ⟨p, rfl⟩ := hc
    exact Nat.le_refl _

end SnapshotCursor

/-! ### Buffers -/

namespace Buffered

variable {p : Producer σ} {I : σ → Prop} {room : Nat} {b : Buffered σ}

private theorem mem_of_current (h : current b = .ok x) : x ∈ b.seen := by
  unfold current at h
  split at h
  · cases h
  · split at h
    · rename_i y hy
      cases h
      exact Position.mem_of_element? hy
    · cases h

/-- A move that keeps buffers sound or closed keeps open ones sound if it leaves them open. -/
private theorem keeps_sound {α : Type} {m : Move (Buffered σ) α} (hkept : m.Keeps (Kept I P))
    (hopen : ∀ b, b.closed = false → (m b).2.closed = false) : m.Keeps fun b => b.closed = false ∧ Sound I P b := by
  rintro b ⟨hb, hsound⟩
  have hb' := hopen b hb
  exact ⟨hb', (hkept b (.inr hsound)).resolve_left (by simp [hb'])⟩

private theorem keeps_open_next (hb : b.closed = false) : (next p b).2.closed = false := by
  rcases hi : b.position.following? with _ | i
  · rw [(gives_next_afterLast hb (following?_eq_none hi)).2]
    exact hb
  · exact (satisfies_next hb hi).closed_eq.trans hb

variable (h : p.Confined I P room)

include h

private theorem keeps_of_confined : p.Keeps I P where
  pull hs := (h.pull _ hs).imp fun _ _ ⟨ht, hfound⟩ => ⟨ht, fun x hx => hfound _ hx x rfl⟩
  seek key hs := (h.seek key _ hs).imp fun _ _ ⟨ht, hfound⟩ => ⟨ht, fun x hx => hfound _ hx x rfl⟩
  rewind hs := h.rewind _ hs

private theorem foundIn_stepped {i : Nat} {found : Option AtomId} {d : Buffered σ} (hb : Sound I P b)
    (hstep : Stepped p b i (.ok found) d) : FoundIn P found := by
  cases hstep with
  | seen => exact fun x hx => hb.seen x (List.mem_of_getElem? hx)
  | exhausted | ended => exact foundIn_none
  | pulled _ _ hpull =>
    intro x hx
    rcases List.mem_append.mp (List.mem_of_getElem? hx) with hseen | hlast
    · exact hb.seen x hseen
    · have hfound : FoundIn P (some _) := ((h.pull _ hb.source).gives hpull).2 _ rfl
      exact List.mem_singleton.mp hlast ▸ foundIn_some.mp hfound

private theorem ensures_next : (next p).Ensures (fun b => b.closed = false ∧ Sound I P b) (FoundIn P) := by
  refine (keeps_sound (keeps_next (keeps_of_confined h)) fun _ => keeps_open_next).ensures_of ?_
  rintro b found ⟨hb, hsound⟩ hfound
  rcases hi : b.position.following? with _ | i
  · have hgives := gives_next_afterLast (p := p) hb (following?_eq_none hi)
    obtain rfl : none = found := Except.ok.inj (hgives.1.symm.trans hfound)
    exact foundIn_none
  · have hstep : Stepped p b i (next p b).1.answer (next p b).2 := satisfies_next hb hi
    rw [hfound] at hstep
    exact foundIn_stepped h hsound hstep

theorem confined : (navigation p).Confined (fun b => b.closed = false ∧ Sound I P b) P room where
  next := ensures_next h
  seekFrom key := by
    refine Navigation.Confined.ensures_seekFrom ?_ fun b x hb hx => hb.2.seen x (mem_of_current hx)
    exact keeps_sound (keeps_goTo (keeps_of_confined h)) fun b hb => satisfies_goTo.closed_eq.trans hb
  beforeFirst := by
    refine keeps_sound (keeps_beforeFirst (keeps_of_confined h)) fun b hb => ?_
    have hkeeps : (navigation p).beforeFirst.Keeps fun b => b.closed = false :=
      .bind (fun _ => id) fun _ => .bind (fun _ => id) fun _ => .bind (.update fun _ => id) fun _ => .update fun _ => id
    exact hkeeps b hb
  le_capacity hb := Nat.le_trans (h.le_capacity hb.2.source) (Nat.le_add_left _ _)

end Buffered

/-! ### Producers over other cursors -/

section Composites

variable {l : Navigation σ} {r : Navigation τ} {I : σ → Prop} {J : τ → Prop} {roomLeft roomRight : Nat}

namespace Intersection

private theorem ensures_meet {left : AtomId → Move σ (Option AtomId)} {right : AtomId → Move τ (Option AtomId)}
    (hl : ∀ key, (left key).Ensures I (FoundIn P)) (hr : ∀ key, (right key).Ensures J (FoundIn Q)) (fuel : Nat)
    {x y : AtomId} (hx : P x) (hy : Q y) :
    (meet left right fuel x y).Ensures (fun u => I u.1 ∧ J u.2) (FoundIn fun z => P z ∧ Q z) := by
  induction fuel generalizing x y with
  | zero => exact .pure foundIn_none
  | succ fuel ih =>
    unfold meet
    rcases hcompare : compare x y with _ | _ | _
    · refine .bind (hl y).onFst fun found hfound => ?_
      cases found with
      | some x => exact ih (foundIn_some.mp hfound) hy
      | none => exact .pure foundIn_none
    · obtain rfl := Nat.compare_eq_eq.mp hcompare
      exact .pure (foundIn_some.mpr ⟨hx, hy⟩)
    · refine .bind (hr x).onSnd fun found hfound => ?_
      cases found with
      | some y => exact ih hx (foundIn_some.mp hfound)
      | none => exact .pure foundIn_none

section

variable (hl : l.Confined I P roomLeft) (hr : r.Confined J Q roomRight)

include hl hr

private theorem keeps_rewind : (rewind l r).Keeps fun u => I u.1 ∧ J u.2 :=
  .bind (.onFst hl.beforeFirst) fun _ => .onSnd hr.beforeFirst

private theorem le_capacity {u : σ × τ} (hu : I u.1 ∧ J u.2) :
    min roomLeft roomRight ≤ min (l.capacity u.1) (r.capacity u.2) :=
  Nat.le_min.mpr ⟨Nat.le_trans (Nat.min_le_left _ _) (hl.le_capacity hu.1),
    Nat.le_trans (Nat.min_le_right _ _) (hr.le_capacity hu.2)⟩

private theorem ensures_align (fuel : Nat) {x y : AtomId} (hx : P x) (hy : Q y) :
    (align l r fuel x y).Ensures (fun u => I u.1 ∧ J u.2) (FoundIn fun z => P z ∧ Q z) :=
  align_eq_meet fuel x y ▸ ensures_meet hl.seekFrom hr.seekFrom fuel hx hy

theorem confined_zigZag :
    (zigZag l r).Confined (fun u => I u.1 ∧ J u.2) (fun z => P z ∧ Q z) (min roomLeft roomRight) where
  pull := by
    refine .bind hl.next.onFst fun x hx => ?_
    cases x with
    | none => exact .pure foundIn_none
    | some x =>
      refine .bind hr.next.onSnd fun y hy => ?_
      cases y with
      | none => exact .pure foundIn_none
      | some y => exact .bind .read fun _ _ => ensures_align hl hr _ (foundIn_some.mp hx) (foundIn_some.mp hy)
  seek key := by
    refine .bind (hl.seekFrom key).onFst fun x hx => ?_
    cases x with
    | none => exact .pure foundIn_none
    | some x =>
      refine .bind (hr.seekFrom x).onSnd fun y hy => ?_
      cases y with
      | none => exact .pure foundIn_none
      | some y => exact .bind .read fun _ _ => ensures_align hl hr _ (foundIn_some.mp hx) (foundIn_some.mp hy)
  rewind := keeps_rewind hl hr
  le_capacity := le_capacity hl hr

theorem confined_sortedMerge :
    (sortedMerge l r).Confined (fun u => I u.1 ∧ J u.2) (fun z => P z ∧ Q z) (min roomLeft roomRight) where
  pull := by
    refine .bind hl.next.onFst fun x hx => .bind hr.next.onSnd fun y hy => ?_
    split
    · refine .bind .read fun _ _ => advance_eq_meet (l := l) (r := r) _ _ _ ▸ ?_
      exact ensures_meet (fun _ => hl.next) (fun _ => hr.next) _ (foundIn_some.mp hx) (foundIn_some.mp hy)
    · exact .pure foundIn_none
  seek _ := .fail
  rewind := keeps_rewind hl hr
  le_capacity := le_capacity hl hr

end

end Intersection

namespace UnionState

/-- The heads of a union that merges are in `P` and `Q`. -/
private def HeadsIn (P Q : AtomId → Prop) : UnionMode → Prop
  | .merge leftHead rightHead _ => FoundIn P leftHead ∧ FoundIn Q rightHead
  | .concat _ _ => True

/-- Both sides have their properties, and the heads come from them. -/
private structure Within (I : σ → Prop) (J : τ → Prop) (P Q : AtomId → Prop) (u : UnionState σ τ) : Prop where
  left : I u.left
  right : J u.right
  heads : HeadsIn P Q u.mode

private theorem ensures_onLeft {α : Type} {m : Move σ α} {A : α → Prop} (h : m.Ensures I A) :
    (onLeft m : Move (UnionState σ τ) α).Ensures (Within I J P Q) A :=
  h.onPart (fun _ hu => hu.left) fun _ _ hs hu => ⟨hs, hu.right, hu.heads⟩

private theorem ensures_onRight {α : Type} {m : Move τ α} {A : α → Prop} (h : m.Ensures J A) :
    (onRight m : Move (UnionState σ τ) α).Ensures (Within I J P Q) A :=
  h.onPart (fun _ hu => hu.right) fun _ _ ht hu => ⟨hu.left, ht, hu.heads⟩

private theorem ensures_setMode {mode : UnionMode} (h : HeadsIn P Q mode) :
    (setMode mode : Move (UnionState σ τ) Unit).Ensures (Within I J P Q) fun _ => True :=
  Move.Keeps.ensures (.update fun _ hu => ⟨hu.left, hu.right, h⟩)

variable (hl : l.Confined I P roomLeft) (hr : r.Confined J Q roomRight)

include hl hr

private theorem ensures_prime {leftHead rightHead : Option AtomId} {primed : Bool}
    (h : HeadsIn P Q (.merge leftHead rightHead primed)) :
    (prime l r leftHead rightHead primed).Ensures (Within I J P Q)
      fun heads => FoundIn P heads.1 ∧ FoundIn Q heads.2 := by
  unfold prime
  split
  · exact .pure h
  · exact .bind (ensures_onLeft hl.next) fun x hx => .bind (ensures_setMode ⟨hx, h.2⟩) fun _ _ =>
      .bind (ensures_onRight hr.next) fun y hy => .bind (ensures_setMode ⟨hx, hy⟩) fun _ _ => .pure ⟨hx, hy⟩

private theorem ensures_pullMerged {leftHead rightHead : Option AtomId} (hleft : FoundIn P leftHead)
    (hright : FoundIn Q rightHead) :
    (pullMerged l r leftHead rightHead).Ensures (Within I J P Q) (FoundIn fun z => P z ∨ Q z) := by
  have htakeLeft (x : AtomId) (y : Option AtomId) (hx : P x) (hy : FoundIn Q y) :
      (takeLeft l x y : Move (UnionState σ τ) _).Ensures (Within I J P Q) (FoundIn fun z => P z ∨ Q z) :=
    .bind (ensures_onLeft hl.next) fun next hnext => .bind (ensures_setMode ⟨hnext, hy⟩) fun _ _ =>
      .pure (foundIn_some.mpr (.inl hx))
  have htakeRight (x : Option AtomId) (y : AtomId) (hx : FoundIn P x) (hy : Q y) :
      (takeRight r x y : Move (UnionState σ τ) _).Ensures (Within I J P Q) (FoundIn fun z => P z ∨ Q z) :=
    .bind (ensures_onRight hr.next) fun next hnext => .bind (ensures_setMode ⟨hx, hnext⟩) fun _ _ =>
      .pure (foundIn_some.mpr (.inr hy))
  unfold pullMerged
  split
  · exact .pure foundIn_none
  · exact htakeLeft _ _ (foundIn_some.mp hleft) hright
  · exact htakeRight _ _ hleft (foundIn_some.mp hright)
  · have hx := foundIn_some.mp hleft
    split
    · exact htakeLeft _ _ hx hright
    · exact htakeRight _ _ hleft (foundIn_some.mp hright)
    · rename_i x y hcompare
      obtain rfl := Nat.compare_eq_eq.mp hcompare
      exact .bind (ensures_onLeft hl.next) fun next hnext => .bind (ensures_setMode ⟨hnext, hright⟩) fun _ _ =>
        .bind (ensures_onRight hr.next) fun other hother => .bind (ensures_setMode ⟨hnext, hother⟩) fun _ _ =>
          .pure (foundIn_some.mpr (.inl hx))

private theorem ensures_pullNew (fuel : Nat) (yielded : List AtomId) (onRightSide : Bool) :
    (pullNew l r fuel yielded onRightSide).Ensures (Within I J P Q) (FoundIn fun z => P z ∨ Q z) := by
  induction fuel generalizing yielded onRightSide with
  | zero => exact .pure foundIn_none
  | succ fuel ih =>
    unfold pullNew
    cases onRightSide with
    | true =>
      refine .bind (ensures_onRight hr.next) fun found hfound => ?_
      cases found with
      | some x =>
        dsimp only
        split
        · exact ih _ _
        · exact .bind (ensures_setMode trivial) fun _ _ => .pure (foundIn_some.mpr (.inr (foundIn_some.mp hfound)))
      | none => exact .pure foundIn_none
    | false =>
      refine .bind (ensures_onLeft hl.next) fun found hfound => ?_
      cases found with
      | some x =>
        dsimp only
        split
        · exact ih _ _
        · exact .bind (ensures_setMode trivial) fun _ _ => .pure (foundIn_some.mpr (.inl (foundIn_some.mp hfound)))
      | none => exact .bind (ensures_setMode trivial) fun _ _ => ih _ _

private theorem ensures_pull : (pull l r).Ensures (Within I J P Q) (FoundIn fun z => P z ∨ Q z) := by
  refine .bind .read fun u hu => ?_
  split
  · rename_i hmode
    exact .bind (ensures_prime hl hr (hmode ▸ hu.heads)) fun heads hheads => ensures_pullMerged hl hr hheads.1 hheads.2
  · exact ensures_pullNew hl hr _ _ _

theorem exists_confined : ∃ K : UnionState σ τ → Prop,
    (∀ s t, I s → J t → K (start l r s t)) ∧
      (producer l r).Confined K (fun z => P z ∨ Q z) (roomLeft + roomRight + 2) := by
  refine ⟨Within I J P Q, fun s t hs ht => ⟨hs, ht, ?_⟩, ?_, fun key => ?_, ?_, fun hu => ?_⟩
  · unfold start
    split
    · exact ⟨foundIn_none, foundIn_none⟩
    · trivial
  · exact ensures_pull hl hr
  · refine .bind .read fun u hu => ?_
    split
    · exact .fail
    · rename_i hmode
      have hheads : HeadsIn P Q (.merge _ _ _) := hmode ▸ hu.heads
      exact .bind (ensures_onLeft (hl.seekFrom key)) fun x hx => .bind (ensures_setMode ⟨hx, hheads.2⟩) fun _ _ =>
        .bind (ensures_onRight (hr.seekFrom key)) fun y hy => .bind (ensures_setMode ⟨hx, hy⟩) fun _ _ =>
          ensures_pull hl hr
  · refine Move.Ensures.keeps (A := fun _ => True) ?_
    refine .bind (ensures_onLeft hl.beforeFirst.ensures) fun _ _ =>
      .bind (ensures_onRight hr.beforeFirst.ensures) fun _ _ => .bind .read fun u hu => ?_
    split
    · rename_i hmode
      have hheads : HeadsIn P Q (.merge _ _ _) := hmode ▸ hu.heads
      exact ensures_setMode hheads
    · exact ensures_setMode trivial
  · exact Nat.add_le_add_right (Nat.add_le_add (hl.le_capacity hu.left) (hr.le_capacity hu.right)) 2

end UnionState

namespace Filter

variable {tests : Tester τ} {room : Nat}

private theorem ensures_onBase {α : Type} {m : Move σ α} {A : α → Prop} (h : m.Ensures I A) :
    (Move.onFst m).Ensures (fun u : σ × τ => I u.1) A := h.onPart (fun _ => id) fun _ _ hs _ => hs

private theorem ensures_onTests {α : Type} {m : Move τ α} :
    (Move.onSnd m).Ensures (fun u : σ × τ => I u.1) fun _ => True := Move.Keeps.ensures fun _ => id

variable (hl : l.Confined I P room)

include hl

private theorem ensures_pullPassing (fuel : Nat) : (pullPassing l tests fuel).Ensures (fun u => I u.1) (FoundIn P) := by
  induction fuel with
  | zero => exact .pure foundIn_none
  | succ fuel ih =>
    refine .bind (ensures_onBase hl.next) fun found hfound => ?_
    cases found with
    | none => exact .pure foundIn_none
    | some x =>
      refine .bind ensures_onTests fun passed _ => ?_
      split
      · exact .pure hfound
      · exact ih

theorem confined : (producer l tests).Confined (fun u => I u.1) P room where
  pull := .bind .read fun _ _ => ensures_pullPassing hl _
  seek key := by
    refine .bind (ensures_onBase (hl.seekFrom key)) fun found hfound => ?_
    cases found with
    | none => exact .pure foundIn_none
    | some x =>
      refine .bind ensures_onTests fun passed _ => ?_
      split
      · exact .pure hfound
      · exact .bind .read fun _ _ => ensures_pullPassing hl _
  rewind := hl.beforeFirst.onPart (fun _ => id) fun _ _ hs _ => hs
  le_capacity hu := hl.le_capacity hu

end Filter

namespace MapEach

variable {image : AtomId → Metered (Option AtomId)} {room : Nat}

private theorem ensures_pullImage (hl : l.Confined I P room)
    (himage : ∀ x y, P x → (image x).answer = .ok (some y) → Q y) (fuel : Nat) :
    (pullImage l image fuel).Ensures I (FoundIn Q) := by
  induction fuel with
  | zero => exact .pure foundIn_none
  | succ fuel ih =>
    refine .bind hl.next fun found hfound => ?_
    cases found with
    | none => exact .pure foundIn_none
    | some x =>
      have hlift : (MonadLift.monadLift (image x) : Move σ _).Ensures I (FoundIn Q) :=
        .lift fun y? hy y hmem => himage x y (foundIn_some.mp hfound) (by rw [hy, hmem])
      refine .bind hlift fun y? hy => ?_
      cases y? with
      | some y => exact .pure hy
      | none => exact ih

theorem confined (hl : l.Confined I P room) (himage : ∀ x y, P x → (image x).answer = .ok (some y) → Q y) :
    (producer l image).Confined I Q room where
  pull := .bind .read fun _ _ => ensures_pullImage hl himage _
  seek _ := .fail
  rewind := hl.beforeFirst
  le_capacity := hl.le_capacity

end MapEach

end Composites

namespace Frontier

variable {order : VisitOrder} {next : AtomId → List AtomId} {neighbours : AtomId → Metered (List AtomId)}
  {origin : AtomId} {includeStart : Bool} {taken : List AtomId} {room : Nat}

theorem confined (hneighbours : ∀ x, (neighbours x).answer = .ok (next x))
    (hvisits : Visits order next [origin] [origin] (origin :: taken)) (hlength : taken.length ≤ room) :
    (producer order neighbours origin includeStart room).Confined
      (fun f => ∃ rest, Rests order next (walked origin includeStart taken) rest f)
      (· ∈ walked origin includeStart taken) (room + 2) := by
  have hyields : (producer order neighbours origin includeStart room).Yields _ false false _ :=
    yields hneighbours hvisits hlength
  refine ⟨?_, fun _ => .fail, ?_, fun {f} _ => ?_⟩
  · rintro f ⟨rest, hf⟩
    obtain ⟨f', rest', hpull, hf', -⟩ := hyields.pull hf
    refine hpull.satisfies ⟨⟨rest', hf'⟩, ?_⟩
    rintro _ ⟨⟩ x hx
    exact (hyields.suffix hf).subset (List.mem_of_mem_head? hx)
  · rintro f ⟨rest, hf⟩
    obtain ⟨f', hrewind, hf'⟩ := hyields.rewind hf
    exact hrewind.2 ▸ ⟨_, hf'⟩
  · show room + 2 ≤ f.pending.length + room + 2
    omega

end Frontier

/-! ### Blueprints -/

namespace Blueprint

variable {g : Graph}

private theorem buffered {p : Producer σ} {I : σ → Prop} {room : Nat} {s : σ} {ids : List AtomId}
    (h : p.Confined I P room) (hs : I s) (hroom : p.capacity s = room) (hids : ∀ x, P x → x ∈ ids)
    (hlength : ids.length ≤ room) : ∃ (J : Buffered σ → Prop) (ids : List AtomId), J (.start s) ∧
      (Buffered.navigation p).Confined J (· ∈ ids) ((Buffered.navigation p).capacity (.start s)) ∧
      ids.length ≤ (Buffered.navigation p).capacity (.start s) := by
  have hcapacity : (Buffered.navigation p).capacity (.start s) = room := (Nat.zero_add _).trans hroom
  rw [hcapacity]
  exact ⟨_, ids, ⟨rfl, hs, by simp [Buffered.start], Buffered.standing_start⟩, (Buffered.confined h).imp hids, hlength⟩

/-- The handles that two lists have in common are in a list that is no longer than the shorter bound. -/
private theorem exists_shorter {as bs : List AtomId} {m n : Nat} (has : as.length ≤ m) (hbs : bs.length ≤ n) :
    ∃ ids : List AtomId, (∀ x, x ∈ as ∧ x ∈ bs → x ∈ ids) ∧ ids.length ≤ min m n := by
  rcases Nat.le_total m n with hle | hle
  · exact ⟨as, fun _ hx => hx.1, by rwa [Nat.min_eq_left hle]⟩
  · exact ⟨bs, fun _ hx => hx.2, by rwa [Nat.min_eq_right hle]⟩

/-- Requests to an open cursor, whether or not they fail, lead to handles of a list that is no longer than the capacity
that it was opened with, and leave it at least that capacity. -/
theorem exists_confined (hstore : g.store.Consistent) : (b : Blueprint) → ∀ {s : b.State},
    (b.access g).start.answer = .ok s → ∃ (I : b.State → Prop) (ids : List AtomId), I s ∧
      (b.access g).toNavigation.Confined I (· ∈ ids) ((b.access g).capacity s) ∧ ids.length ≤ (b.access g).capacity s
  | .reading r, u, hu => by
    obtain ⟨snapshot, -, hu⟩ := Metered.answer_bind_eq_ok_iff.mp hu
    cases hu
    exact ⟨SnapshotCursor.Over snapshot, snapshot.items, ⟨_, rfl⟩, SnapshotCursor.confined, Nat.le_refl _⟩
  | .forwardOnly inner, s, hs => by
    obtain ⟨I, ids, hI, hinner, hlength⟩ := exists_confined hstore inner hs
    exact ⟨I, ids, hI, hinner.forwardOnly, hlength⟩
  | .zigZag left right, u, hu => by
    obtain ⟨s, hs, hu⟩ := Metered.answer_bind_eq_ok_iff.mp hu
    obtain ⟨t, ht, hu⟩ := Metered.answer_bind_eq_ok_iff.mp hu
    cases hu
    obtain ⟨I, as, hI, hl, has⟩ := exists_confined hstore left hs
    obtain ⟨J, bs, hJ, hr, hbs⟩ := exists_confined hstore right ht
    obtain ⟨ids, hids, hlength⟩ := exists_shorter has hbs
    exact buffered (Intersection.confined_zigZag hl hr) ⟨hI, hJ⟩ rfl hids hlength
  | .sortedMerge left right, u, hu => by
    obtain ⟨s, hs, hu⟩ := Metered.answer_bind_eq_ok_iff.mp hu
    obtain ⟨t, ht, hu⟩ := Metered.answer_bind_eq_ok_iff.mp hu
    cases hu
    obtain ⟨I, as, hI, hl, has⟩ := exists_confined hstore left hs
    obtain ⟨J, bs, hJ, hr, hbs⟩ := exists_confined hstore right ht
    obtain ⟨ids, hids, hlength⟩ := exists_shorter has hbs
    exact buffered (Intersection.confined_sortedMerge hl hr) ⟨hI, hJ⟩ rfl hids hlength
  | .union left right, u, hu => by
    obtain ⟨s, hs, hu⟩ := Metered.answer_bind_eq_ok_iff.mp hu
    obtain ⟨t, ht, hu⟩ := Metered.answer_bind_eq_ok_iff.mp hu
    cases hu
    obtain ⟨I, as, hI, hl, has⟩ := exists_confined hstore left hs
    obtain ⟨J, bs, hJ, hr, hbs⟩ := exists_confined hstore right ht
    obtain ⟨K, hK, hunion⟩ := UnionState.exists_confined hl hr
    refine buffered hunion (hK s t hI hJ) rfl (fun x hx => List.mem_append.mpr hx) ?_
    rw [List.length_append]
    omega
  | .filter base checks, u, hu => by
    obtain ⟨s, hs, hu⟩ := Metered.answer_bind_eq_ok_iff.mp hu
    cases hu
    obtain ⟨I, ids, hI, hbase, hlength⟩ := exists_confined hstore base hs
    exact buffered (Filter.confined hbase) hI rfl (fun _ => id) hlength
  | .map base mapping, u, hu => by
    obtain ⟨s, hs, hu⟩ := Metered.answer_bind_eq_ok_iff.mp hu
    cases hu
    obtain ⟨I, ids, hI, hbase, hlength⟩ := exists_confined hstore base hs
    have himages : (MapEach.producer (base.access g).toNavigation
        fun id => Metered.ofExcept (mapping.apply g id)).Confined I (· ∈ ids.filterMap (mapping.image g)) _ :=
      MapEach.confined hbase fun x y hx hy => List.mem_filterMap.mpr ⟨x, hx, Mapping.image_eq_some_iff.mpr hy⟩
    exact buffered himages hI rfl (fun _ => id) (Nat.le_trans (List.length_filterMap_le _ _) hlength)
  | .walk w, u, hu => by
    cases hu
    obtain ⟨taken, hvisits, hlength⟩ := exists_taken_walk hstore w
    have hwalk : (Frontier.producer w.order (w.neighbours g.store) w.start w.includeStart
        g.store.linkEnds).Confined _ _ _ :=
      Frontier.confined (Walk.answer_neighbours hstore) hvisits hlength
    refine buffered hwalk ⟨_, .start⟩ (by simp [Frontier.producer, Frontier.start]) (fun _ => id) ?_
    exact Nat.le_trans Frontier.length_walked_le (by omega)

end Blueprint

end HyperQuery
