import HyperQuery.Proofs.Cursor.Reading

/-!
# Stepping to the end

What a producer does after it had nothing left is open, but a cursor ends for good (`Navigation.Ends`): once a step
forward finds nothing, no later one finds anything. Snapshots end, and so do buffers, over any producer whatsoever,
since their position ends, and so the cursors of all blueprints (`Blueprint.exists_ends`). All that such a cursor finds as
long as the steps succeed is a beginning of what it reads (`Navigation.Reads.isPrefix_of_replies`).
-/

namespace HyperQuery

variable {σ τ : Type} {E : QueryError → Prop}

/-- In the states with the property, which steps forward keep, a step that finds nothing leads to a state where the next
one finds nothing either and stays. -/
structure Navigation.Ends (n : Navigation σ) (I : σ → Prop) : Prop where
  next : ∀ {s x t}, I s → n.next.Gives s x t → I t
  stays : ∀ {s t}, I s → n.next.Gives s none t → n.next.Gives t none t

/-! ### Snapshots -/

namespace SnapshotCursor

/-- A step forward finds an element, or it leads behind the last one. -/
private theorem cases_next {c d : SnapshotCursor} {x : Option AtomId} (h : SnapshotCursor.next.Gives c x d) :
    (∃ y, x = some y) ∨ x = none ∧ d.closed = false ∧ d.position = .afterLast := by
  obtain ⟨snap, position, closed⟩ := c
  cases closed with
  | true =>
    have hfails : SnapshotCursor.next.Fails ⟨snap, position, true⟩ .cursorClosed ⟨snap, position, true⟩ := fails_closed rfl
    exact absurd h.1 (by simp [hfails.1])
  | false =>
    rcases hi : position.following? with _ | i
    · obtain ⟨rfl, rfl⟩ := h.unique (gives_next_none hi)
      cases position with
      | afterLast => exact .inr ⟨rfl, rfl, rfl⟩
      | beforeFirst | on _ => simp [Position.following?] at hi
    · rcases hx : snap.items[i]? with _ | y
      · obtain ⟨rfl, rfl⟩ := h.unique (gives_next_end hi hx)
        exact .inr ⟨rfl, rfl, rfl⟩
      · obtain ⟨rfl, rfl⟩ := h.unique (gives_next_some hi hx)
        exact .inl ⟨y, rfl⟩

theorem ends : navigation.Ends fun _ => True where
  next _ _ := trivial
  stays {c d} _ h := by
    rcases cases_next h with ⟨y, hy⟩ | ⟨-, hclosed, hposition⟩
    · cases hy
    · obtain ⟨snap, position, closed⟩ := d
      cases hclosed
      cases hposition
      exact gives_next_none rfl

end SnapshotCursor

/-! ### Buffers -/

namespace Buffered

variable {p : Producer σ} {b d : Buffered σ}

/-- The buffer stands on something that it has seen, or on nothing. -/
def Standing (b : Buffered σ) : Prop := ∀ i, b.position = .on i → i < b.seen.length

theorem standing_start {s : σ} : Standing (start s) := by
  intro i h
  cases h

theorem Standing.following_le (hb : Standing b) {i : Nat} (hi : b.position.following? = some i) : i ≤ b.seen.length := by
  cases hposition : b.position with
  | beforeFirst =>
    rw [hposition] at hi
    cases hi
    exact Nat.zero_le _
  | on j =>
    rw [hposition] at hi
    cases hi
    exact hb j hposition
  | afterLast =>
    rw [hposition] at hi
    cases hi

/-- Filling up leads to the same position, and to the index if it answers that there is an element. -/
private theorem cases_fill {i : Nat} {found : Bool} (hi : i ≤ b.seen.length) (h : (fill p i).Gives b found d) :
    d.position = b.position ∧ d.closed = b.closed ∧ (found = true → i < d.seen.length) := by
  obtain ⟨s, seen, position, exhausted, closed⟩ := b
  obtain ⟨c, c', ⟨hc, rfl⟩, h⟩ := Move.gives_bind_iff.mp h
  cases hc
  dsimp only at h hi
  split at h
  · obtain ⟨rfl, rfl⟩ := h.unique .pure
    exact ⟨rfl, rfl, fun _ => ‹_›⟩
  · split at h
    · obtain ⟨rfl, rfl⟩ := h.unique .pure
      exact ⟨rfl, rfl, by simp⟩
    · obtain ⟨x, c, hsource, -⟩ := Move.gives_bind_iff.mp h
      have hpull : p.pull.Gives s x (p.pull s).2 := ⟨hsource.1, rfl⟩
      cases x with
      | some x =>
        obtain ⟨rfl, rfl⟩ := h.unique (gives_pullOne_some hpull)
        exact ⟨rfl, rfl, fun _ => by simpa using Nat.lt_succ_of_le hi⟩
      | none =>
        obtain ⟨rfl, rfl⟩ := h.unique (gives_pullOne_none hpull)
        exact ⟨rfl, rfl, by simp⟩

/-- A step forward finds an element that has been seen, or it leads behind the last one. -/
private theorem cases_next {x : Option AtomId} (hb : Standing b) (h : (next p).Gives b x d) :
    (∃ y, x = some y ∧ Standing d) ∨ x = none ∧ d.closed = false ∧ d.position = .afterLast := by
  cases hclosed : b.closed with
  | true =>
    have hfails : (next p).Fails b .cursorClosed b := fails_closed hclosed
    exact absurd h.1 (by simp [hfails.1])
  | false =>
    obtain ⟨s, seen, position, exhausted, closed⟩ := b
    cases hclosed
    obtain ⟨_, c, hopen, h⟩ := Move.gives_bind_iff.mp h
    obtain ⟨-, rfl⟩ := gives_ensureOpen.unique hopen
    obtain ⟨_, c, ⟨hread, rfl⟩, h⟩ := Move.gives_bind_iff.mp h
    cases hread
    dsimp only at h
    rcases hi : position.following? with _ | i
    · rw [hi] at h
      obtain ⟨rfl, rfl⟩ := h.unique .pure
      cases position with
      | afterLast => exact .inr ⟨rfl, rfl, rfl⟩
      | beforeFirst | on _ => simp [Position.following?] at hi
    · rw [hi] at h
      obtain ⟨found, c, hfill, h⟩ := Move.gives_bind_iff.mp h
      obtain ⟨-, hopen, hlt⟩ := cases_fill (hb.following_le hi) hfill
      cases found with
      | true =>
        obtain ⟨_, e, ⟨-, rfl⟩, h⟩ := Move.gives_bind_iff.mp h
        obtain ⟨_, e, ⟨hread, rfl⟩, h⟩ := Move.gives_bind_iff.mp h
        cases hread
        obtain ⟨rfl, rfl⟩ := h.unique .pure
        refine .inl ⟨_, List.getElem?_eq_getElem (hlt rfl), ?_⟩
        rintro _ ⟨⟩
        exact hlt rfl
      | false =>
        obtain ⟨_, e, ⟨-, rfl⟩, h⟩ := Move.gives_bind_iff.mp h
        obtain ⟨rfl, rfl⟩ := h.unique .pure
        exact .inr ⟨rfl, hopen, rfl⟩

theorem ends : (navigation p).Ends Standing where
  next {b x d} hb h := by
    rcases cases_next hb h with ⟨y, -, hd⟩ | ⟨-, -, hd⟩
    · exact hd
    · intro i hi
      rw [hd] at hi
      cases hi
  stays {b d} hb h := by
    rcases cases_next hb h with ⟨y, hy, -⟩ | ⟨-, hclosed, hposition⟩
    · cases hy
    · obtain ⟨s, seen, position, exhausted, closed⟩ := d
      cases hclosed
      cases hposition
      exact gives_ensureOpen.bind (Move.Gives.read.bind .pure)

end Buffered

/-! ### All steps -/

section Steps

variable {n : Navigation σ} {m : Navigation τ} {I : σ → Prop} {V : σ → τ → Prop} {R : List AtomId → τ → Prop} {s : σ}
  {S : List AtomId → σ → Prop} {u : σ} {t : τ} {items rest : List AtomId} {ordered seekable : Bool}
  {found : List (Option AtomId)} {x : Option AtomId}

/-- The replies to steps forward that succeed. -/
def Reply.elements (found : List (Option AtomId)) : List (Except QueryError Reply) := found.map fun x => .ok (.element x)

theorem replies_next_cons (h : n.replies (.replicate (x :: found).length .next) s = Reply.elements (x :: found)) :
    ∃ t, n.next.Gives s x t ∧ n.replies (.replicate found.length .next) t = Reply.elements found := by
  obtain ⟨hreply, hrest⟩ := List.cons_eq_cons.mp h
  have hstep : (Request.next.perform n).Gives s (.element x) _ := ⟨hreply, rfl⟩
  obtain ⟨y, t, hnext, hpure⟩ := Move.gives_bind_iff.mp hstep
  obtain ⟨hx, ht⟩ := hpure.unique .pure
  cases hx
  exact ⟨t, hnext, ht ▸ hrest⟩

theorem replies_next_succ {k : Nat} (h : n.next.Gives s x u) :
    n.replies (.replicate (k + 1) .next) s = .ok (.element x) :: n.replies (.replicate k .next) u := by
  obtain ⟨hanswer, hstate⟩ : (Request.next.perform n).Gives s (.element x) u := h.bind .pure
  rw [List.replicate_succ, Navigation.replies, hanswer, hstate]

theorem replies_next_of_ended (hended : n.next.Gives s none s) (k : Nat) :
    n.replies (.replicate k .next) s = Reply.elements (.replicate k none) := by
  induction k with
  | zero => rfl
  | succ k ih => rw [replies_next_succ hended, ih, List.replicate_succ, Reply.elements, Reply.elements, List.map_cons]

/-- Steps forward find what a cursor yields, one after the other, and then nothing, however many follow. -/
theorem replies_next_of_yields (hn : n.Ends I) (hyields : n.forward.Yields items ordered seekable S) (hI : I s)
    (hS : S rest s) (k : Nat) :
    n.replies (.replicate (rest.length + k) .next) s = Reply.elements (rest.map some ++ .replicate k none) := by
  induction rest generalizing s with
  | nil =>
    cases k with
    | zero => rfl
    | succ k =>
      obtain ⟨u, -, hnext, -⟩ := (hyields.pull hS).cases_nil
      rw [List.length_nil, Nat.zero_add, replies_next_succ hnext, replies_next_of_ended (hn.stays hI hnext)]
      rfl
  | cons x rest ih =>
    obtain ⟨u, hnext, hS⟩ := (hyields.pull hS).cases_cons
    rw [List.length_cons, Nat.succ_add, replies_next_succ hnext, ih (hn.next hI hnext) hS]
    rfl

/-- Once a step has found nothing, no later one finds anything. -/
theorem filterMap_eq_nil_of_ended (hended : n.next.Gives s none s)
    (h : n.replies (.replicate found.length .next) s = Reply.elements found) : found.filterMap id = [] := by
  induction found with
  | nil => rfl
  | cons x found ih =>
    obtain ⟨t, hnext, hrest⟩ := replies_next_cons h
    obtain ⟨rfl, rfl⟩ := hnext.unique hended
    exact ih hrest

private theorem isPrefix_of_tracks (hn : n.Ends I) (htracks : n.forward.Tracks E m.forward V)
    (hm : m.forward.Yields items ordered seekable R) (hI : I s) (hV : V s t) (hR : R rest t)
    (h : n.replies (.replicate found.length .next) s = Reply.elements found) : found.filterMap id <+: rest := by
  induction found generalizing s t rest with
  | nil => exact List.nil_prefix
  | cons x found ih =>
    obtain ⟨u, hnext, hrest⟩ := replies_next_cons h
    cases x with
    | none =>
      rw [List.filterMap_cons_none rfl, filterMap_eq_nil_of_ended (hn.stays hI hnext) hrest]
      exact List.nil_prefix
    | some x =>
      cases htracks.pull hV with
      | @answers y s' t' hpull hpull' hV =>
        obtain ⟨rfl, rfl⟩ := hpull.unique hnext
        obtain ⟨v, rest', hdraw, hR', htail⟩ := hm.pull hR
        obtain ⟨hhead, rfl⟩ := hdraw.unique hpull'
        cases rest with
        | nil => simp at hhead
        | cons z rest =>
          cases hhead
          obtain rfl : rest' = rest := htail (by simp)
          exact (List.prefix_cons_inj x).mpr (ih (hn.next hI hnext) hV hR' hrest)
      | @fails e s' t' hpull _ _ =>
        have hfails : n.next.Fails s e s' := hpull
        exact absurd hnext.1 (by simp [hfails.1])

/-- All that successful steps forward find, in order, is a beginning of what the cursor reads. -/
theorem Navigation.Reads.isPrefix_of_replies (h : n.Reads E s items ordered) (hn : n.Ends I) (hI : I s)
    (hfound : n.replies (.replicate found.length .next) s = Reply.elements found) : found.filterMap id <+: items := by
  obtain ⟨ρ, m, V, R, t, seekable, htracks, hV, hm, hR⟩ := h
  exact isPrefix_of_tracks hn htracks hm hI hV hR hfound

end Steps

/-! ### Blueprints -/

namespace Blueprint

variable {g : Graph}

/-- The cursor of a blueprint ends, in a class of states that it is opened in. -/
theorem exists_ends : (b : Blueprint) → ∃ I : b.State → Prop,
    (b.access g).toNavigation.Ends I ∧ ∀ s, (b.access g).start.answer = .ok s → I s
  | .reading _ => ⟨_, SnapshotCursor.ends, fun _ _ => trivial⟩
  | .forwardOnly inner => by
    obtain ⟨I, hends, hI⟩ := exists_ends inner
    exact ⟨I, ⟨hends.next, hends.stays⟩, hI⟩
  | .zigZag _ _ | .sortedMerge _ _ | .union _ _ => by
    refine ⟨_, Buffered.ends, fun u hu => ?_⟩
    obtain ⟨s, -, hu⟩ := Metered.answer_bind_eq_ok_iff.mp hu
    obtain ⟨t, -, hu⟩ := Metered.answer_bind_eq_ok_iff.mp hu
    cases hu
    exact Buffered.standing_start
  | .filter _ _ | .map _ _ => by
    refine ⟨_, Buffered.ends, fun u hu => ?_⟩
    obtain ⟨s, -, hu⟩ := Metered.answer_bind_eq_ok_iff.mp hu
    cases hu
    exact Buffered.standing_start
  | .walk _ => by
    refine ⟨_, Buffered.ends, fun u hu => ?_⟩
    cases hu
    exact Buffered.standing_start

end Blueprint

end HyperQuery
