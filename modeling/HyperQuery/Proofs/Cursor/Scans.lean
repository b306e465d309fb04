import HyperQuery.Proofs.Cursor.Filter
import HyperQuery.Proofs.Cursor.Frontier
import HyperQuery.Proofs.Cursor.Intersection
import HyperQuery.Proofs.Walk

/-!
# How many scans moving a cursor takes

An open cursor has a budget of scans, which depends on its state: what it spends comes out of the budget, and no move makes
the budget larger (`Move.Affords`). So the budget at the beginning covers reading the cursor to its end, however often it is
moved (`Navigation.Affords.scans_drain`). Snapshots need no budget. A test that opens a cursor needs what this costs until it
has been made once, a walk one scan for each atom that it has still to expand, and everything else what its parts need.

Seeking in a cursor may have to start over, and a walk that starts over expands its atoms again. So what holds of moves
forward is kept apart from what holds of all moves (the flag `sought`).
-/

namespace HyperQuery

variable {α β σ τ : Type}

/-! ### Moves within a budget -/

/-- The computation takes at most so many scans, and what it answers is in `A` and leaves enough of them to be covered
further. -/
def Metered.Affords (A : α → Prop) (left : α → Nat) (budget : Nat) (x : Metered α) : Prop :=
  x.meters.scans ≤ budget ∧ ∀ a, x.answer = .ok a → A a ∧ x.meters.scans + left a ≤ budget

/-- From the state `s` the move takes no more scans than it is given, and if it succeeds it reaches a state in `I` whose budget
is covered by what it leaves. -/
def Move.AffordsAt (I : σ → Prop) (budget : σ → Nat) (given : Nat) (m : Move σ α) (s : σ) : Prop :=
  (m s).1.meters.scans ≤ given ∧
    ∀ a, (m s).1.answer = .ok a → I (m s).2 ∧ (m s).1.meters.scans + budget (m s).2 ≤ given

/-- The move takes no more scans than there are in the budget, and if it succeeds it keeps `I` and takes them out of the
budget. -/
def Move.Affords (I : σ → Prop) (budget : σ → Nat) (m : Move σ α) : Prop := ∀ s, I s → m.AffordsAt I budget (budget s) s

namespace Metered

variable {A : α → Prop} {B : β → Prop} {left : α → Nat} {right : β → Nat} {budget : Nat} {x : Metered α}

theorem scans_add (m n : Meters) : (m + n).scans = m.scans + n.scans := rfl

theorem Affords.bind {f : α → Metered β} (h : Affords A left budget x)
    (hf : ∀ a, A a → Affords B right (left a) (f a)) : Affords B right budget (x >>= f) := by
  obtain ⟨hspent, hanswer⟩ := h
  unfold Affords
  rw [meters_bind, answer_bind]
  rcases hx : x.answer with e | a
  · exact ⟨hspent, nofun⟩
  · obtain ⟨ha, hleft⟩ := hanswer a hx
    obtain ⟨hrest, hresult⟩ := hf a ha
    refine ⟨?_, fun b hb => ?_⟩
    · show (x.meters + (f a).meters).scans ≤ budget
      rw [scans_add]
      omega
    · obtain ⟨hb, hremaining⟩ := hresult b hb
      refine ⟨hb, ?_⟩
      show (x.meters + (f a).meters).scans + right b ≤ budget
      rw [scans_add]
      omega

theorem Affords.pure {a : α} (ha : A a) (hleft : left a ≤ budget) : Affords A left budget (Pure.pure a) := by
  refine ⟨Nat.zero_le _, fun b hb => ?_⟩
  obtain rfl : a = b := Except.ok.inj hb
  exact ⟨ha, (Nat.zero_add _).symm ▸ hleft⟩

/-- What takes no scans leaves the budget. -/
theorem affords_of_scans_eq_zero (hscans : x.meters.scans = 0) (hA : ∀ a, x.answer = .ok a → A a ∧ left a ≤ budget) :
    Affords A left budget x :=
  ⟨hscans ▸ Nat.zero_le _, fun a ha => ⟨(hA a ha).1, by rw [hscans, Nat.zero_add]; exact (hA a ha).2⟩⟩

/-- What is left over stays. -/
theorem Affords.add (h : Affords A left budget x) (extra : Nat) :
    Affords A (fun a => left a + extra) (budget + extra) x :=
  ⟨Nat.le_trans h.1 (Nat.le_add_right _ _), fun a ha => ⟨(h.2 a ha).1, by
    have hleft := (h.2 a ha).2
    show x.meters.scans + (left a + extra) ≤ budget + extra
    omega⟩⟩

end Metered

namespace Move

variable {I : σ → Prop} {J : τ → Prop} {budget : σ → Nat} {reserve : τ → Nat} {m : Move σ α}

theorem AffordsAt.bind {f : α → Move σ β} {given : Nat} {s : σ} (h : AffordsAt I budget given m s)
    (hf : ∀ a t, I t → AffordsAt I budget (budget t) (f a) t) : AffordsAt I budget given (m >>= f) s := by
  obtain ⟨hspent, hanswer⟩ := h
  unfold AffordsAt
  rcases hm : m s with ⟨⟨e | a, spent⟩, t⟩
  · rw [bind_error hm]
    rw [hm] at hspent
    exact ⟨hspent, nofun⟩
  · rw [hm] at hanswer
    obtain ⟨ht, hleft⟩ := hanswer a rfl
    obtain ⟨hrest, hresult⟩ := hf a t ht
    rw [bind_ok hm]
    change spent.scans + budget t ≤ given at hleft
    refine ⟨?_, fun b hb => ?_⟩
    · show (spent + (f a t).1.meters).scans ≤ given
      rw [Metered.scans_add]
      omega
    · obtain ⟨hu, hremaining⟩ := hresult b hb
      refine ⟨hu, ?_⟩
      show (spent + (f a t).1.meters).scans + budget (f a t).2 ≤ given
      rw [Metered.scans_add]
      omega

theorem AffordsAt.imp {I' : σ → Prop} {given : Nat} {s : σ} (h : AffordsAt I budget given m s) (hI : ∀ t, I t → I' t) :
    AffordsAt I' budget given m s := ⟨h.1, fun a ha => ⟨hI _ (h.2 a ha).1, (h.2 a ha).2⟩⟩

theorem AffordsAt.read {f : σ → Move σ β} {given : Nat} {s : σ} (h : AffordsAt I budget given (f s) s) :
    AffordsAt I budget given (Move.read >>= f) s := by
  unfold AffordsAt
  rwa [read_bind]

theorem AffordsAt.update {g : σ → σ} {f : Unit → Move σ β} {given : Nat} {s : σ}
    (h : AffordsAt I budget given (f ()) (g s)) : AffordsAt I budget given (Move.update g >>= f) s := by
  unfold AffordsAt
  rwa [update_bind]

theorem Affords.bind {f : α → Move σ β} (h : Affords I budget m) (hf : ∀ a, Affords I budget (f a)) :
    Affords I budget (m >>= f) := fun s hs => (h s hs).bind fun a t ht => hf a t ht

/-- A move that takes no scans and changes nothing. -/
theorem affords_of_idle (hscans : ∀ s, (m s).1.meters.scans = 0) (hstate : ∀ s, (m s).2 = s) :
    Affords I budget m := fun s hs => by
  unfold AffordsAt
  rw [hscans, hstate]
  exact ⟨Nat.zero_le _, fun _ _ => ⟨hs, Nat.le_of_eq (Nat.zero_add _)⟩⟩

theorem Affords.pure {a : α} : Affords I budget (Pure.pure a : Move σ α) :=
  affords_of_idle (fun _ => rfl) fun _ => rfl

theorem Affords.read : Affords I budget Move.read := affords_of_idle (fun _ => rfl) fun _ => rfl

theorem Affords.fail {e : QueryError} : Affords I budget (Move.fail e : Move σ α) :=
  affords_of_idle (fun _ => rfl) fun _ => rfl

theorem Affords.lift {x : Metered α} (h : x.meters.scans = 0) :
    Affords I budget (MonadLift.monadLift x : Move σ α) := affords_of_idle (fun _ => h) fun _ => rfl

theorem Affords.update {f : σ → σ} (h : ∀ s, I s → I (f s) ∧ budget (f s) ≤ budget s) :
    Affords I budget (Move.update f) := fun s hs =>
  ⟨Nat.zero_le _, fun _ _ => ⟨(h s hs).1, (Nat.zero_add _).symm ▸ (h s hs).2⟩⟩

/-- A move on a part of the state takes its scans out of the part of the budget. -/
theorem Affords.onPart {get : τ → σ} {set : σ → τ → τ} (h : Affords I budget m)
    (hget : ∀ t, J t → I (get t) ∧ budget (get t) ≤ reserve t)
    (hset : ∀ s t, I s → J t → J (set s t) ∧ reserve (set s t) + budget (get t) ≤ reserve t + budget s) :
    Affords J reserve (Move.onPart get set m) := by
  intro t ht
  obtain ⟨hI, hle⟩ := hget t ht
  obtain ⟨hspent, hanswer⟩ := h (get t) hI
  refine ⟨Nat.le_trans hspent hle, fun a ha => ?_⟩
  obtain ⟨hkept, hleft⟩ := hanswer a ha
  obtain ⟨hJ, hreserve⟩ := hset _ t hkept ht
  refine ⟨hJ, ?_⟩
  show (m (get t)).1.meters.scans + reserve (set (m (get t)).2 t) ≤ reserve t
  omega

theorem Affords.onFst (h : Affords I budget m) :
    Affords (fun u : σ × τ => I u.1 ∧ J u.2) (fun u => budget u.1 + reserve u.2) (Move.onFst m) :=
  h.onPart (fun _ ht => ⟨ht.1, Nat.le_add_right _ _⟩) fun _ _ hs ht => ⟨⟨hs, ht.2⟩, by dsimp only; omega⟩

theorem Affords.onSnd {m : Move τ α} (h : Affords J reserve m) :
    Affords (fun u : σ × τ => I u.1 ∧ J u.2) (fun u => budget u.1 + reserve u.2) (Move.onSnd m) :=
  h.onPart (fun _ ht => ⟨ht.2, Nat.le_add_left _ _⟩) fun _ _ hs ht => ⟨⟨ht.1, hs⟩, by dsimp only; omega⟩

end Move

/-- Moves forward stay within the budget, and so do searches and returns to the start if the cursor is sought. -/
structure Navigation.Affords (n : Navigation σ) (sought : Bool) (I : σ → Prop) (budget : σ → Nat) : Prop where
  next : n.next.Affords I budget
  goTo : sought = true → ∀ key exact, (n.goTo key exact).Affords I budget
  beforeFirst : sought = true → n.beforeFirst.Affords I budget

/-- Pulling stays within the budget, and so do seeking and rewinding if the cursor is sought. -/
structure Producer.Affords (p : Producer σ) (sought : Bool) (I : σ → Prop) (budget : σ → Nat) : Prop where
  pull : p.pull.Affords I budget
  seek : sought = true → ∀ key, (p.seek key).Affords I budget
  rewind : sought = true → p.rewind.Affords I budget

variable {sought : Bool} {I : σ → Prop} {J : τ → Prop} {budget : σ → Nat} {reserve : τ → Nat}

namespace Navigation.Affords

variable {n : Navigation σ}

theorem seekFrom (h : n.Affords sought I budget) (hsought : sought = true) (key : AtomId) :
    (n.seekFrom key).Affords I budget := by
  refine .bind (h.goTo hsought key false) fun landing => ?_
  cases landing with
  | absent => exact .pure
  | found | closest => exact .bind .read fun s => .bind (.lift rfl) fun _ => .pure

private theorem scans_readOut (h : n.Affords sought I budget) (fuel : Nat) {s : σ} (hs : I s) :
    (n.readOut fuel s).1.meters.scans ≤ budget s := by
  induction fuel generalizing s with
  | zero => exact Nat.zero_le _
  | succ fuel ih =>
    obtain ⟨hspent, hanswer⟩ := h.next s hs
    unfold readOut
    rcases hnext : n.next s with ⟨⟨e | x | x, spent⟩, t⟩
    · rw [hnext] at hspent
      exact hspent
    · rw [hnext] at hspent
      exact hspent
    · rw [hnext] at hanswer
      obtain ⟨ht, hleft⟩ := hanswer _ rfl
      have hrest : (n.readOut fuel t).1.meters.scans ≤ budget t := ih ht
      change spent.scans + budget t ≤ budget s at hleft
      show (spent + (n.readOut fuel t).1.meters).scans ≤ budget s
      rw [Metered.scans_add]
      omega

private theorem scans_remaining (h : n.Affords sought I budget) {s : σ} (hs : I s) :
    (n.remaining s).1.meters.scans ≤ budget s := by
  unfold remaining
  rw [Move.read_bind]
  exact h.scans_readOut _ hs

/-- What is done with the remaining elements takes no scans. -/
private theorem scans_remaining_bind (h : n.Affords sought I budget) {f : List AtomId × Option QueryError → Move σ α}
    (hf : ∀ xs t, (f xs t).1.meters.scans = 0) {s : σ} (hs : I s) :
    ((n.remaining >>= f) s).1.meters.scans ≤ budget s := by
  have hspent := h.scans_remaining hs
  rcases hm : n.remaining s with ⟨⟨e | xs, spent⟩, t⟩
  · rw [Move.bind_error hm]
    rwa [hm] at hspent
  · rw [Move.bind_ok hm]
    show (spent + (f xs t).1.meters).scans ≤ budget s
    rw [Metered.scans_add, hf, Nat.add_zero]
    rwa [hm] at hspent

/-- The budget covers reading the cursor to its end. -/
theorem scans_drain (h : n.Affords sought I budget) {s : σ} (hs : I s) : (n.drain s).1.meters.scans ≤ budget s := by
  refine h.scans_remaining_bind (fun ⟨xs, e⟩ t => ?_) hs
  cases e <;> rfl

theorem scans_collect (h : n.Affords sought I budget) {s : σ} (hs : I s) :
    (n.collect s).1.meters.scans ≤ budget s := by
  refine h.scans_remaining_bind (fun ⟨xs, e⟩ t => ?_) hs
  cases e <;> rfl

end Navigation.Affords

/-! ### Snapshots -/

namespace SnapshotCursor

private theorem affords_ensureOpen : ensureOpen.Affords (fun _ => True) fun _ => 0 :=
  Move.affords_of_idle (fun c => by unfold ensureOpen; cases c.closed <;> rfl) fun _ => rfl

private theorem affords_moveTo {p : Position} : (moveTo p).Affords (fun _ => True) fun _ => 0 :=
  .update fun _ _ => ⟨trivial, Nat.le_refl _⟩

/-- A snapshot has been taken, and moving over it takes no scans. -/
theorem affords : navigation.Affords sought (fun _ => True) fun _ => 0 where
  next := by
    refine .bind affords_ensureOpen fun _ => .bind .read fun c => ?_
    split
    · exact .pure
    · split
      · exact .bind affords_moveTo fun _ => .pure
      · exact .bind affords_moveTo fun _ => .pure
  goTo _ key exact := by
    have hland (i : Nat) (landing : Landing) : (land i landing).Affords (fun _ => True) fun _ => 0 :=
      .bind affords_moveTo fun _ => .pure
    refine .bind affords_ensureOpen fun _ => .bind .read fun c => ?_
    split
    · exact .fail
    · split
      · exact .fail
      · split
        · exact hland _ _
        · exact .pure
    · dsimp only
      split
      · exact .pure
      · split
        · exact hland _ _
        · split
          · exact .pure
          · exact hland _ _
  beforeFirst _ := .bind affords_ensureOpen fun _ => affords_moveTo

end SnapshotCursor

/-! ### Buffers -/

namespace Buffered

variable {p : Producer σ}

/-- A buffer has the budget of what it is filled from. -/
private abbrev AffordsFrom (I : σ → Prop) (budget : σ → Nat) (m : Move (Buffered σ) α) : Prop :=
  m.Affords (fun b => I b.source) fun b => budget b.source

private theorem affords_ensureOpen : AffordsFrom I budget ensureOpen :=
  Move.affords_of_idle (fun b => by unfold ensureOpen; cases b.closed <;> rfl) fun _ => rfl

private theorem affords_onSource {m : Move σ α} (h : m.Affords I budget) : AffordsFrom I budget (onSource m) :=
  h.onPart (fun _ hb => ⟨hb, Nat.le_refl _⟩) fun _ _ hs _ => ⟨hs, Nat.le_of_eq (Nat.add_comm _ _)⟩

/-- A change to the buffer alone. -/
private theorem affords_update {f : Buffered σ → Buffered σ} (h : ∀ b, (f b).source = b.source) :
    AffordsFrom I budget (Move.update f) := .update fun b hb => by rw [h]; exact ⟨hb, Nat.le_refl _⟩

private theorem affords_moveTo {position : Position} : AffordsFrom I budget (moveTo position : Move (Buffered σ) Unit) :=
  affords_update fun _ => rfl

private theorem affords_forget {exhausted : Bool} : AffordsFrom I budget (forget exhausted : Move (Buffered σ) Unit) :=
  affords_update fun _ => rfl

private theorem affords_resetAt {x : AtomId} : AffordsFrom I budget (resetAt x : Move (Buffered σ) Unit) :=
  affords_update fun _ => rfl

section Pull

variable (hpull : p.pull.Affords I budget)

include hpull

private theorem affords_fill (index : Nat) : AffordsFrom I budget (fill p index) := by
  refine .bind .read fun b => ?_
  split
  · exact .pure
  · split
    · exact .pure
    · refine .bind (affords_onSource hpull) fun found => ?_
      cases found with
      | some x => exact .bind (affords_update fun _ => rfl) fun _ => .pure
      | none => exact .bind (affords_update fun _ => rfl) fun _ => .pure

private theorem affords_next : AffordsFrom I budget (next p) := by
  refine .bind affords_ensureOpen fun _ => .bind .read fun b => ?_
  split
  · exact .pure
  · refine .bind (affords_fill hpull _) fun there => ?_
    cases there with
    | true => exact .bind affords_moveTo fun _ => .bind .read fun _ => .pure
    | false => exact .bind affords_moveTo fun _ => .pure

private theorem affords_exhaust (fuel : Nat) : AffordsFrom I budget (exhaust p fuel) := by
  induction fuel with
  | zero => exact .pure
  | succ fuel ih =>
    refine .bind (affords_onSource hpull) fun found => ?_
    cases found with
    | some x => exact ih
    | none => exact .pure

end Pull

section Seek

variable (h : p.Affords true I budget)

include h

private theorem affords_restore : AffordsFrom I budget (restore p) := by
  refine .bind .read fun b => ?_
  split
  · exact .bind (affords_onSource (h.rewind rfl)) fun _ => affords_forget
  · split
    · exact .bind (affords_onSource (h.seek rfl _)) fun _ => affords_resetAt
    · exact .pure
  · exact .bind (affords_exhaust h.pull _) fun _ => affords_forget

private theorem affords_goTo (key : AtomId) (exact : Bool) : AffordsFrom I budget (goTo p key exact) := by
  refine .bind affords_ensureOpen fun _ => .bind .read fun b => ?_
  split
  · exact .fail
  · split
    · exact .pure
    · refine .bind (affords_onSource (h.seek rfl key)) fun found => ?_
      cases found with
      | none => exact .bind (affords_restore h) fun _ => .pure
      | some x =>
        dsimp only
        split
        · exact .bind affords_resetAt fun _ => .pure
        · split
          · exact .bind affords_resetAt fun _ => .pure
          · exact .bind (affords_restore h) fun _ => .pure

end Seek

theorem affords (h : p.Affords sought I budget) :
    (navigation p).Affords sought (fun b => I b.source) fun b => budget b.source where
  next := affords_next h.pull
  goTo hsought key exact := affords_goTo (hsought ▸ h) key exact
  beforeFirst hsought := .bind affords_ensureOpen fun _ => .bind (affords_onSource (h.rewind hsought)) fun _ =>
    .bind affords_forget fun _ => affords_moveTo

end Buffered

/-! ### Two cursors -/

section Pairs

variable {l : Navigation σ} {r : Navigation τ}

namespace Intersection

/-- Two cursors have their budgets together. -/
private abbrev AffordsBoth (I : σ → Prop) (J : τ → Prop) (budget : σ → Nat) (reserve : τ → Nat)
    (m : Move (σ × τ) α) : Prop := m.Affords (fun u => I u.1 ∧ J u.2) fun u => budget u.1 + reserve u.2

private theorem affords_meet {left : AtomId → Move σ (Option AtomId)} {right : AtomId → Move τ (Option AtomId)}
    (hl : ∀ key, (left key).Affords I budget) (hr : ∀ key, (right key).Affords J reserve) (fuel : Nat) (x y : AtomId) :
    AffordsBoth I J budget reserve (meet left right fuel x y) := by
  induction fuel generalizing x y with
  | zero => exact .pure
  | succ fuel ih =>
    unfold meet
    rcases compare x y with _ | _ | _
    · refine .bind (hl y).onFst fun found => ?_
      cases found with
      | some x => exact ih x y
      | none => exact .pure
    · exact .pure
    · refine .bind (hr x).onSnd fun found => ?_
      cases found with
      | some y => exact ih x y
      | none => exact .pure

private theorem affords_rewind (hl : l.beforeFirst.Affords I budget) (hr : r.beforeFirst.Affords J reserve) :
    AffordsBoth I J budget reserve (rewind l r) := .bind hl.onFst fun _ => hr.onSnd

/-- Both sides are sought, whether or not their intersection is. -/
theorem affords_zigZag (hl : l.Affords true I budget) (hr : r.Affords true J reserve) :
    (zigZag l r).Affords sought (fun u => I u.1 ∧ J u.2) fun u => budget u.1 + reserve u.2 := by
  have halign (fuel : Nat) (x y : AtomId) : AffordsBoth I J budget reserve (align l r fuel x y) :=
    align_eq_meet (l := l) (r := r) fuel x y ▸ affords_meet (hl.seekFrom rfl) (hr.seekFrom rfl) fuel x y
  refine ⟨?_, fun _ key => ?_, fun _ => affords_rewind (hl.beforeFirst rfl) (hr.beforeFirst rfl)⟩
  · refine .bind hl.next.onFst fun x => ?_
    cases x with
    | none => exact .pure
    | some x =>
      refine .bind hr.next.onSnd fun y => ?_
      cases y with
      | none => exact .pure
      | some y => exact .bind .read fun _ => halign _ x y
  · refine .bind (hl.seekFrom rfl key).onFst fun x => ?_
    cases x with
    | none => exact .pure
    | some x =>
      refine .bind (hr.seekFrom rfl x).onSnd fun y => ?_
      cases y with
      | none => exact .pure
      | some y => exact .bind .read fun _ => halign _ x y

theorem affords_sortedMerge (hl : l.Affords sought I budget) (hr : r.Affords sought J reserve) :
    (sortedMerge l r).Affords sought (fun u => I u.1 ∧ J u.2) fun u => budget u.1 + reserve u.2 where
  pull := by
    refine .bind hl.next.onFst fun x => .bind hr.next.onSnd fun y => ?_
    split
    · refine .bind .read fun _ => advance_eq_meet (l := l) (r := r) _ _ _ ▸ ?_
      exact affords_meet (fun _ => hl.next) (fun _ => hr.next) _ _ _
    · exact .pure
  seek _ _ := .fail
  rewind hsought := affords_rewind (hl.beforeFirst hsought) (hr.beforeFirst hsought)

end Intersection

namespace UnionState

private abbrev AffordsBoth (I : σ → Prop) (J : τ → Prop) (budget : σ → Nat) (reserve : τ → Nat)
    (m : Move (UnionState σ τ) α) : Prop :=
  m.Affords (fun u => I u.left ∧ J u.right) fun u => budget u.left + reserve u.right

private theorem affords_onLeft {m : Move σ α} (h : m.Affords I budget) :
    AffordsBoth I J budget reserve (onLeft m) :=
  h.onPart (fun _ hu => ⟨hu.1, Nat.le_add_right _ _⟩) fun _ _ hs hu => ⟨⟨hs, hu.2⟩, by dsimp only; omega⟩

private theorem affords_onRight {m : Move τ α} (h : m.Affords J reserve) :
    AffordsBoth I J budget reserve (onRight m) :=
  h.onPart (fun _ hu => ⟨hu.2, Nat.le_add_left _ _⟩) fun _ _ ht hu => ⟨⟨hu.1, ht⟩, by dsimp only; omega⟩

private theorem affords_setMode {mode : UnionMode} : AffordsBoth I J budget reserve (setMode mode) :=
  .update fun _ hu => ⟨hu, Nat.le_refl _⟩

section Pull

variable (hl : l.next.Affords I budget) (hr : r.next.Affords J reserve)

include hl hr

private theorem affords_prime (leftHead rightHead : Option AtomId) (primed : Bool) :
    AffordsBoth I J budget reserve (prime l r leftHead rightHead primed) := by
  unfold prime
  split
  · exact .pure
  · exact .bind (affords_onLeft hl) fun _ => .bind affords_setMode fun _ => .bind (affords_onRight hr) fun _ =>
      .bind affords_setMode fun _ => .pure

private theorem affords_pullMerged (leftHead rightHead : Option AtomId) :
    AffordsBoth I J budget reserve (pullMerged l r leftHead rightHead) := by
  have htakeLeft (x : AtomId) (y : Option AtomId) : AffordsBoth I J budget reserve (takeLeft l x y) :=
    .bind (affords_onLeft hl) fun _ => .bind affords_setMode fun _ => .pure
  have htakeRight (x : Option AtomId) (y : AtomId) : AffordsBoth I J budget reserve (takeRight r x y) :=
    .bind (affords_onRight hr) fun _ => .bind affords_setMode fun _ => .pure
  unfold pullMerged
  split
  · exact .pure
  · exact htakeLeft _ _
  · exact htakeRight _ _
  · split
    · exact htakeLeft _ _
    · exact htakeRight _ _
    · exact .bind (affords_onLeft hl) fun _ => .bind affords_setMode fun _ => .bind (affords_onRight hr) fun _ =>
        .bind affords_setMode fun _ => .pure

private theorem affords_pullNew (fuel : Nat) (yielded : List AtomId) (onRightSide : Bool) :
    AffordsBoth I J budget reserve (pullNew l r fuel yielded onRightSide) := by
  induction fuel generalizing yielded onRightSide with
  | zero => exact .pure
  | succ fuel ih =>
    unfold pullNew
    cases onRightSide with
    | true =>
      refine .bind (affords_onRight hr) fun found => ?_
      cases found with
      | some x =>
        dsimp only
        split
        · exact ih _ _
        · exact .bind affords_setMode fun _ => .pure
      | none => exact .pure
    | false =>
      refine .bind (affords_onLeft hl) fun found => ?_
      cases found with
      | some x =>
        dsimp only
        split
        · exact ih _ _
        · exact .bind affords_setMode fun _ => .pure
      | none => exact .bind affords_setMode fun _ => ih _ _

private theorem affords_pull : AffordsBoth I J budget reserve (pull l r) := by
  refine .bind .read fun u => ?_
  split
  · exact .bind (affords_prime hl hr _ _ _) fun heads => affords_pullMerged hl hr heads.1 heads.2
  · exact affords_pullNew hl hr _ _ _

end Pull

theorem affords (hl : l.Affords sought I budget) (hr : r.Affords sought J reserve) :
    (producer l r).Affords sought (fun u => I u.left ∧ J u.right) fun u => budget u.left + reserve u.right where
  pull := affords_pull hl.next hr.next
  seek hsought key := by
    refine .bind .read fun u => ?_
    split
    · exact .fail
    · exact .bind (affords_onLeft (hl.seekFrom hsought key)) fun _ => .bind affords_setMode fun _ =>
        .bind (affords_onRight (hr.seekFrom hsought key)) fun _ => .bind affords_setMode fun _ =>
          affords_pull hl.next hr.next
  rewind hsought := by
    refine .bind (affords_onLeft (hl.beforeFirst hsought)) fun _ =>
      .bind (affords_onRight (hr.beforeFirst hsought)) fun _ => .bind .read fun u => ?_
    split
    · exact affords_setMode
    · exact affords_setMode

end UnionState

end Pairs

/-! ### Tests -/

namespace Tester

variable {a : Access σ} {opening : Nat}

/-- Each test of a candidate stays within the budget. -/
def Affords (t : Tester τ) (J : τ → Prop) (reserve : τ → Nat) : Prop := ∀ id, (t.test id).Affords J reserve

/-- What is left to be spent on something that is made for the first candidate: all that making it takes, or else the budget
that it has. -/
def pending (opening : Nat) (budget : σ → Nat) : Option σ → Nat
  | none => opening
  | some s => budget s

private theorem affords_counted {m : Move τ Bool} (h : m.Affords J reserve) : (counted m).Affords J reserve :=
  .bind h fun _ => .bind (.lift rfl) fun _ => .pure

private theorem affords_prepare {make : Metered σ} (h : make.Affords I budget opening) :
    (prepare make).Affords (Prepared I) (pending opening budget) := by
  intro s? hs?
  cases hs? with
  | ready hs => exact ⟨Nat.zero_le _, fun _ _ => ⟨.ready hs, Nat.le_of_eq (Nat.zero_add _)⟩⟩
  | notYet =>
    obtain ⟨hspent, hanswer⟩ := h
    rcases make with ⟨e | s, spent⟩
    · exact ⟨hspent, nofun⟩
    · obtain ⟨hs, hleft⟩ := hanswer s rfl
      exact ⟨hspent, fun _ _ => ⟨.ready hs, hleft⟩⟩

private theorem affords_onPrepared {missing : α} {m : Move σ α} (h : m.Affords I budget) :
    (onPrepared missing m).Affords (Prepared I) (pending opening budget) := by
  intro s? hs?
  cases hs? with
  | notYet => exact ⟨Nat.zero_le _, fun _ _ => ⟨.notYet, Nat.le_of_eq (Nat.zero_add _)⟩⟩
  | @ready s hs =>
    obtain ⟨hspent, hanswer⟩ := h s hs
    refine ⟨hspent, fun x hx => ?_⟩
    obtain ⟨hkept, hleft⟩ := hanswer x hx
    exact ⟨.ready hkept, hleft⟩

/-- Testing whether a condition holds takes no scans if deciding it does not. -/
theorem affords_point {test : AtomId → Metered Bool} (h : ∀ id, (test id).meters.scans = 0) :
    (point test).Affords (fun _ => True) fun _ => 0 := fun id => affords_counted (.lift (h id))

/-- A cursor that is probed is opened once. -/
theorem affords_member (hstart : a.start.Affords I budget opening) (h : a.toNavigation.Affords true I budget) :
    (member a).Affords (Prepared I) (pending opening budget) := fun id =>
  .bind (affords_prepare hstart) fun _ => affords_counted (affords_onPrepared (.bind (h.goTo rfl id true) fun _ => .pure))

private theorem affords_gathered {limit : Option Nat} (hstart : a.start.Affords I budget opening)
    (h : a.toNavigation.Affords sought I budget) : (gathered a limit).Affords (fun _ => True) (fun _ => 0) opening := by
  refine hstart.bind fun s hs => ?_
  have hcollect : (a.collect s).1.Affords (fun _ => True) (fun _ => 0) (budget s) :=
    ⟨h.scans_collect hs, fun _ _ => ⟨trivial, h.scans_collect hs⟩⟩
  refine hcollect.bind fun ids _ => Metered.affords_of_scans_eq_zero ?_ fun _ _ => ⟨trivial, Nat.le_refl _⟩
  split <;> rfl

/-- A cursor whose elements are collected is opened and read once. -/
theorem affords_gather {limit : Option Nat} (hstart : a.start.Affords I budget opening)
    (h : a.toNavigation.Affords sought I budget) :
    (gather a limit).Affords (Prepared fun _ => True) (pending opening fun _ => 0) := fun _ =>
  .bind (affords_prepare (affords_gathered hstart h)) fun _ =>
    affords_counted (affords_onPrepared (.bind .read fun _ => .pure))

theorem affords_always : always.Affords (fun _ => True) fun _ => 0 := fun _ => .pure

theorem Affords.both {t : Tester σ} {u : Tester τ} (ht : t.Affords I budget) (hu : u.Affords J reserve) :
    (both t u).Affords (fun s => I s.1 ∧ J s.2) fun s => budget s.1 + reserve s.2 := fun id => by
  refine .bind (ht id).onFst fun passed => ?_
  cases passed with
  | true => exact (hu id).onSnd
  | false => exact .pure

end Tester

namespace Filter

variable {base : Navigation σ} {tests : Tester τ}

private theorem affords_pullPassing (hbase : base.next.Affords I budget) (htests : tests.Affords J reserve) (fuel : Nat) :
    (pullPassing base tests fuel).Affords (fun u => I u.1 ∧ J u.2) fun u => budget u.1 + reserve u.2 := by
  induction fuel with
  | zero => exact .pure
  | succ fuel ih =>
    refine .bind hbase.onFst fun found => ?_
    cases found with
    | none => exact .pure
    | some x =>
      refine .bind (htests x).onSnd fun passed => ?_
      cases passed with
      | true => exact .pure
      | false => exact ih

/-- A filter has the budgets of its base and of its tests. -/
theorem affords (hbase : base.Affords sought I budget) (htests : tests.Affords J reserve) :
    (producer base tests).Affords sought (fun u => I u.1 ∧ J u.2) fun u => budget u.1 + reserve u.2 := by
  have hpull : (pull base tests).Affords (fun u => I u.1 ∧ J u.2) fun u => budget u.1 + reserve u.2 :=
    .bind .read fun _ => affords_pullPassing hbase.next htests _
  refine ⟨hpull, fun hsought key => ?_, fun hsought => (hbase.beforeFirst hsought).onFst⟩
  refine .bind (hbase.seekFrom hsought key).onFst fun found => ?_
  cases found with
  | none => exact .pure
  | some x =>
    refine .bind (htests x).onSnd fun passed => ?_
    cases passed with
    | true => exact .pure
    | false => exact hpull

end Filter

namespace MapEach

variable {base : Navigation σ} {image : AtomId → Metered (Option AtomId)}

/-- Mapping takes no scans if the mapping does not. -/
theorem affords (hbase : base.Affords sought I budget) (himage : ∀ id, (image id).meters.scans = 0) :
    (producer base image).Affords sought I budget := by
  have hpull (fuel : Nat) : (pullImage base image fuel).Affords I budget := by
    induction fuel with
    | zero => exact .pure
    | succ fuel ih =>
      refine .bind hbase.next fun found => ?_
      cases found with
      | none => exact .pure
      | some x =>
        refine .bind (.lift (himage x)) fun y => ?_
        cases y with
        | none => exact ih
        | some y => exact .pure
  exact ⟨.bind .read fun _ => hpull _, fun _ _ => .fail, hbase.beforeFirst⟩

end MapEach

/-! ### Walks -/

namespace Frontier

variable {order : VisitOrder} {neighbours : AtomId → Metered (List AtomId)} {next : AtomId → List AtomId}
  {origin : AtomId} {all : List AtomId} {f : Frontier}

/-- The walk has found nothing outside the list, and nothing twice. -/
private structure Inside (all : List AtomId) (f : Frontier) : Prop where
  started : f.started = true
  nodup : f.visited.Nodup
  visited : ∀ z ∈ f.visited, z ∈ all
  pending : ∀ z ∈ f.pending, z ∈ all

/-- The walk has not begun, or it is inside the list. -/
def Stays (all : List AtomId) (f : Frontier) : Prop := f = start ∨ Inside all f

/-- The atoms of a list that a walk has still to expand: those that wait, and those that it has not found. -/
def unexpanded (all : List AtomId) (f : Frontier) : Nat := f.pending.length + (all.length - f.visited.length)

private theorem inside_enlist {found : List AtomId} (h : Inside all f) (hfound : ∀ z ∈ found, z ∈ all) :
    Inside all (enlist found f) := by
  have hfresh : ∀ z ∈ fresh f.visited found, z ∈ all := fun z hz => hfound z (mem_fresh.mp hz).1
  rw [enlist_eq]
  refine ⟨h.started, ?_, fun z hz => ?_, fun z hz => ?_⟩
  · refine List.nodup_append.mpr ⟨(List.reverse_perm _).nodup_iff.mpr nodup_fresh, h.nodup, ?_⟩
    rintro x hx _ hy rfl
    exact (mem_fresh.mp (List.mem_reverse.mp hx)).2 hy
  · exact (List.mem_append.mp hz).elim (fun hz => hfresh z (List.mem_reverse.mp hz)) (h.visited z)
  · exact (List.mem_append.mp hz).elim (h.pending z) (hfresh z)

/-- Atoms that are found wait instead of being still to be found. -/
private theorem unexpanded_enlist {found : List AtomId} (h : Inside all f) (hfound : ∀ z ∈ found, z ∈ all) :
    unexpanded all (enlist found f) = unexpanded all f := by
  have hinside := inside_enlist h hfound
  have hroom : (enlist found f).visited.length ≤ all.length := hinside.nodup.length_le_of_subset hinside.visited
  rw [enlist_eq] at hroom ⊢
  simp only [unexpanded, List.length_append, List.length_reverse] at hroom ⊢
  omega

section Expanding

variable (hneighbours : ∀ x, (neighbours x).answer = .ok (next x)) (hscans : ∀ x, (neighbours x).meters.scans ≤ 1)
  (hnext : ∀ x ∈ all, ∀ z ∈ next x, z ∈ all)

include hneighbours hscans hnext

private theorem affordsAt_expand {x : AtomId} (h : Inside all f) (hx : x ∈ all) :
    (expand neighbours x).AffordsAt (Inside all) (unexpanded all) (unexpanded all f + 1) f := by
  have hlift : (liftM (neighbours x) : Move Frontier _) f = (⟨.ok (next x), (neighbours x).meters⟩, f) :=
    congrArg (fun answer => ((⟨answer, (neighbours x).meters⟩ : Metered _), f)) (hneighbours x)
  have hexpand : expand neighbours x f = (⟨.ok (), (neighbours x).meters + .zero⟩, enlist (next x) f) := Move.bind_ok hlift
  have hspent := hscans x
  unfold Move.AffordsAt
  rw [hexpand, Meters.add_zero]
  refine ⟨Nat.le_trans hspent (Nat.le_add_left _ _), fun _ _ => ⟨inside_enlist h (hnext x hx), ?_⟩⟩
  show (neighbours x).meters.scans + unexpanded all (enlist (next x) f) ≤ unexpanded all f + 1
  rw [unexpanded_enlist h (hnext x hx)]
  omega

private theorem affords_step : (step order neighbours).Affords (Inside all) (unexpanded all) := by
  intro f hf
  refine .read ?_
  by_cases hpending : f.pending = []
  · rw [take?_nil hpending]
    exact Move.Affords.pure f hf
  · obtain ⟨x, rest, hpick⟩ : ∃ x rest, order.Picks f.pending x rest := VisitOrder.exists_picks hpending
    have hperm := hpick.perm
    have hx : x ∈ all := hf.pending x (hperm.mem_iff.mpr (by simp))
    have htaken : Inside all { f with pending := rest } :=
      ⟨hf.started, hf.nodup, hf.visited, fun z hz => hf.pending z (hperm.mem_iff.mpr (List.mem_cons_of_mem x hz))⟩
    -- the atom that is picked waits no longer, which pays for expanding it
    have hbudget : unexpanded all f = unexpanded all { f with pending := rest } + 1 := by
      simp only [unexpanded, hperm.length_eq, List.length_cons]
      omega
    rw [take?_picks hpick, hbudget]
    exact .update ((affordsAt_expand hneighbours hscans hnext htaken hx).bind fun _ _ ht => Move.Affords.pure _ ht)

/-- A walk takes one scan for each atom of the list that it expands, and expands none twice. -/
theorem affords_walk {includeStart : Bool} {room : Nat} (horigin : origin ∈ all) :
    (producer order neighbours origin includeStart room).Affords false (Stays all) (unexpanded all) := by
  have hstep : (step order neighbours).Affords (Inside all) (unexpanded all) := affords_step hneighbours hscans hnext
  refine ⟨fun f hf => .read ?_, nofun, nofun⟩
  rcases hf with rfl | hf
  -- the walk begins by finding its start and expanding it, whether or not it is included
  · have hbegun : Inside all ⟨[], [origin], true⟩ :=
      ⟨rfl, by simp, fun z hz => List.mem_singleton.mp hz ▸ horigin, nofun⟩
    have hbudget : unexpanded all start = unexpanded all ⟨[], [origin], true⟩ + 1 := by
      have hroom := List.length_pos_of_mem horigin
      simp only [unexpanded, start, List.length_nil, List.length_singleton]
      omega
    have hbegin := (affordsAt_expand hneighbours hscans hnext hbegun horigin).bind
      (f := fun _ => if includeStart then pure (some origin) else step order neighbours) fun _ t ht => by
        split
        · exact Move.Affords.pure t ht
        · exact hstep t ht
    rw [hbudget]
    exact .update (hbegin.imp fun _ => .inr)
  · rw [hf.started]
    exact (hstep f hf).imp fun _ => .inr

end Expanding

end Frontier

end HyperQuery
