import HyperQuery.Proofs.Cursor.Capacity
import HyperQuery.Proofs.Cursor.Failing

/-!
# Draining is stepping forward

Draining a cursor answers what its steps forward find up to the first that finds nothing, or the first error
(`Navigation.answer_drain`), in so many steps as its capacity allows. If these do not suffice, it is cut short
(`Navigation.finds_of_drain`). A mapping whose base comes to an end within its capacity is drained to the images of what
its base is drained to, the handles without image left out (`MapEach.answer_drain`).
-/

namespace HyperQuery

/-- What replies to steps forward come to: the handles before the first reply that there is none, or the first error. -/
def Reply.collected : List (Except QueryError Reply) → Except QueryError (List AtomId)
  | .ok (.element (some x)) :: replies => (collected replies).map (x :: ·)
  | .error e :: _ => .error e
  | _ => .ok []

variable {σ : Type}

namespace Navigation

variable {n : Navigation σ} {s : σ}

private theorem exists_readOut (fuel : Nat) : ∃ xs e, (n.readOut fuel s).1.answer = .ok (xs, e) ∧
    Reply.collected (n.replies (.replicate fuel .next) s) = match e with
      | none => .ok xs
      | some e => .error e := by
  induction fuel generalizing s with
  | zero => exact ⟨[], none, rfl, rfl⟩
  | succ fuel ih =>
    rcases n.next.gives_or_fails s with ⟨x, t, h⟩ | ⟨e, t, h⟩
    · rw [replies_next_succ h]
      cases x with
      | none => exact ⟨[], none, (Producer.Yields.gives_readOut_nil h).1, rfl⟩
      | some x =>
        obtain ⟨xs, e, hrest, hcollected⟩ := ih (s := t)
        refine ⟨x :: xs, e, (Producer.Yields.gives_readOut_cons h ⟨hrest, rfl⟩).1, ?_⟩
        rw [Reply.collected, hcollected]
        cases e <;> rfl
    · rw [replies_next_error h]
      exact ⟨[], some e, (gives_readOut_error h).1, rfl⟩

/-- Draining answers what so many steps forward come to as the capacity allows. -/
theorem answer_drain :
    (n.drain s).1.answer = Reply.collected (n.replies (.replicate (n.capacity s + 1) .next) s) := by
  obtain ⟨xs, e, hread, hcollected⟩ := exists_readOut (n := n) (s := s) (n.capacity s + 1)
  have hremaining : n.remaining.Gives s (xs, e) (n.remaining s).2 := ⟨hread, rfl⟩
  rw [hcollected]
  cases e with
  | none =>
    have hdrain : n.drain.Gives s xs _ := hremaining.bind .pure
    exact hdrain.1
  | some e =>
    have hdrain : n.drain.Fails s e _ := hremaining.fails_bind ⟨rfl, rfl⟩
    exact hdrain.1

/-- From the state on, steps forward find these handles and then nothing. -/
def Finds (n : Navigation σ) (s : σ) (rest : List AtomId) : Prop :=
  n.replies (.replicate (rest.length + 1) .next) s = Reply.elements (rest.map some ++ [none])

private theorem finds_or_replies {k : Nat} {ids : List AtomId}
    (h : Reply.collected (n.replies (.replicate k .next) s) = .ok ids) :
    n.Finds s ids ∨ ids.length = k ∧ n.replies (.replicate k .next) s = Reply.elements (ids.map some) := by
  induction k generalizing s ids with
  | zero =>
    cases h
    exact .inr ⟨rfl, rfl⟩
  | succ k ih =>
    rcases n.next.gives_or_fails s with ⟨x, t, hnext⟩ | ⟨e, t, hnext⟩
    · rw [replies_next_succ hnext] at h ⊢
      cases x with
      | none =>
        cases h
        exact .inl (replies_next_succ hnext)
      | some x =>
        rcases hrest : Reply.collected (n.replies (.replicate k .next) t) with e | rest
        · rw [Reply.collected, hrest] at h
          cases h
        · rw [Reply.collected, hrest] at h
          cases h
          rcases ih hrest with hfinds | ⟨rfl, hreplies⟩
          · refine .inl ?_
            rw [Finds, List.length_cons, replies_next_succ hnext, hfinds]
            rfl
          · exact .inr ⟨rfl, by rw [hreplies]; rfl⟩
    · rw [replies_next_error hnext] at h
      cases h

/-- Draining comes to the end, or it is cut short when it has found one handle more than the capacity. -/
theorem finds_of_drain {ids : List AtomId} (h : (n.drain s).1.answer = .ok ids) :
    n.Finds s ids ∨ ids.length = n.capacity s + 1 ∧
      n.replies (.replicate (ids.map some).length .next) s = Reply.elements (ids.map some) := by
  rw [answer_drain] at h
  refine (finds_or_replies h).imp_right fun ⟨hlength, hreplies⟩ => ⟨hlength, ?_⟩
  rwa [List.length_map, hlength]

end Navigation

namespace Navigation.Finds

variable {n : Navigation σ} {s : σ} {x : AtomId} {rest : List AtomId}

theorem replies_eq (h : n.Finds s rest) :
    n.replies (.replicate (rest.map some ++ [none]).length .next) s = Reply.elements (rest.map some ++ [none]) := by
  rw [List.length_append, List.length_map]
  exact h

theorem gives_none (h : n.Finds s []) : ∃ t, n.next.Gives s none t := by
  have hreplies : n.replies (.replicate [(none : Option AtomId)].length .next) s = Reply.elements [none] := h
  obtain ⟨t, hnext, -⟩ := replies_next_cons hreplies
  exact ⟨t, hnext⟩

theorem gives_some (h : n.Finds s (x :: rest)) : ∃ t, n.next.Gives s (some x) t ∧ n.Finds t rest := by
  have hreplies : n.replies (.replicate (some x :: (rest.map some ++ [none])).length .next) s =
      Reply.elements (some x :: (rest.map some ++ [none])) := h.replies_eq
  obtain ⟨t, hnext, ht⟩ := replies_next_cons hreplies
  rw [List.length_append, List.length_map] at ht
  exact ⟨t, hnext, ht⟩

end Navigation.Finds

/-! ### Draining a mapping -/

namespace MapEach

variable {n : Navigation σ} {image : AtomId → Metered (Option AtomId)} {I : σ → Prop} {P : AtomId → Prop} {s : σ}
  {x y : AtomId} {rest : List AtomId} {fuel k room : Nat} {e : QueryError}

/-- The images of handles, those without image left out, or the first error. -/
def images (image : AtomId → Metered (Option AtomId)) (rest : List AtomId) : Except QueryError (List AtomId) := do
  return (← rest.mapM fun x => (image x).answer).filterMap id

theorem images_cons_some (h : (image x).answer = .ok (some y)) :
    images image (x :: rest) = (images image rest).map (y :: ·) := by
  rw [images, images, List.mapM_cons, h]
  cases rest.mapM fun x => (image x).answer <;> rfl

theorem images_cons_none (h : (image x).answer = .ok none) : images image (x :: rest) = images image rest := by
  rw [images, images, List.mapM_cons, h]
  cases rest.mapM fun x => (image x).answer <;> rfl

theorem images_cons_error (h : (image x).answer = .error e) : images image (x :: rest) = .error e := by
  rw [images, List.mapM_cons, h]
  rfl

/-- Pulling goes on to the first handle that has an image or fails, if there is fuel enough for all that are left. -/
private theorem exists_pulled (image : AtomId → Metered (Option AtomId)) (hn : n.Confined I P room) (hI : I s)
    (hs : n.Finds s rest) (hfuel : rest.length ≤ fuel) :
    (∃ t, (pullImage n image fuel).Gives s none t ∧ images image rest = .ok []) ∨
    (∃ e t, (pullImage n image fuel).Fails s e t ∧ images image rest = .error e) ∨
    ∃ y t rest', (pullImage n image fuel).Gives s (some y) t ∧ I t ∧ n.Finds t rest' ∧ rest'.length < rest.length ∧
      images image rest = (images image rest').map (y :: ·) := by
  induction rest generalizing s fuel with
  | nil =>
    cases fuel with
    | zero => exact .inl ⟨s, .pure, rfl⟩
    | succ fuel =>
      obtain ⟨t, hnext⟩ := hs.gives_none
      have hpull : (pullImage n image (fuel + 1)).Gives s none t := Move.Gives.bind hnext .pure
      exact .inl ⟨t, hpull, rfl⟩
  | cons x rest ih =>
    obtain ⟨t, hnext, ht⟩ := hs.gives_some
    have hIt : I t := ((hn.next s hI).gives hnext).1
    cases fuel with
    | zero => simp at hfuel
    | succ fuel =>
      rcases hx : (image x).answer with e | _ | y
      · have hpull : (pullImage n image (fuel + 1)).Fails s e t :=
          Move.Gives.fails_bind hnext (Move.Fails.bind (Move.Fails.lift hx))
        exact .inr (.inl ⟨e, t, hpull, images_cons_error hx⟩)
      · -- without an image the pull goes on from behind the handle
        rw [images_cons_none hx]
        rcases ih hIt ht (Nat.le_of_succ_le_succ hfuel) with
          ⟨u, hrest, himages⟩ | ⟨e, u, hrest, himages⟩ | ⟨y, u, rest', hrest, hIu, hu, hless, himages⟩
        · have hpull : (pullImage n image (fuel + 1)).Gives s none u :=
            Move.Gives.bind hnext (Move.Gives.bind (Move.Gives.lift hx) hrest)
          exact .inl ⟨u, hpull, himages⟩
        · have hpull : (pullImage n image (fuel + 1)).Fails s e u :=
            Move.Gives.fails_bind hnext (Move.Gives.fails_bind (Move.Gives.lift hx) hrest)
          exact .inr (.inl ⟨e, u, hpull, himages⟩)
        · have hpull : (pullImage n image (fuel + 1)).Gives s (some y) u :=
            Move.Gives.bind hnext (Move.Gives.bind (Move.Gives.lift hx) hrest)
          exact .inr (.inr ⟨y, u, rest', hpull, hIu, hu, Nat.lt_succ_of_lt hless, himages⟩)
      · have hpull : (pullImage n image (fuel + 1)).Gives s (some y) t :=
          Move.Gives.bind hnext (Move.Gives.bind (Move.Gives.lift hx) .pure)
        exact .inr (.inr ⟨y, t, rest, hpull, hIt, ht, Nat.lt_succ_self _, images_cons_some hx⟩)

/-- Where the base comes to an end within its room, what is drawn comes to the images of what it finds. -/
private theorem collected_draws (hn : n.Confined I P room) (hI : I s) (hs : n.Finds s rest)
    (hroom : rest.length ≤ room + 1) (hk : rest.length ≤ k) :
    Reply.collected (((producer n image).draws k s).map (Except.map Reply.element)) = images image rest := by
  induction k generalizing s rest with
  | zero =>
    obtain rfl := List.length_eq_zero_iff.mp (Nat.le_zero.mp hk)
    rfl
  | succ k ih =>
    have hfuel : rest.length ≤ n.capacity s + 1 := Nat.le_trans hroom (Nat.succ_le_succ (hn.le_capacity hI))
    rcases exists_pulled image hn hI hs hfuel with
      ⟨t, hpull, himages⟩ | ⟨e, t, hpull, himages⟩ | ⟨y, t, rest', hpull, hI', hs', hless, himages⟩
    · have hpull : (producer n image).pull.Gives s none t := Move.Gives.read.bind hpull
      rw [Producer.draws_of_none hpull, himages]
      rfl
    · have hpull : (producer n image).pull.Fails s e t := Move.Fails.read hpull
      rw [Producer.draws_of_error hpull, himages]
      rfl
    · have hpull : (producer n image).pull.Gives s (some y) t := Move.Gives.read.bind hpull
      have hrest := ih hI' hs' (Nat.le_trans (Nat.le_of_lt hless) hroom) (by omega)
      rw [Producer.draws_of_some hpull, himages, ← hrest]
      rfl

/-- A mapping whose base comes to an end within its capacity is drained to the images of what the base finds. -/
theorem answer_drain (hn : n.Confined I P (n.capacity s)) (hI : I s) (hs : n.Finds s rest)
    (hlength : rest.length ≤ n.capacity s) :
    ((Buffered.navigation (producer n image)).drain (.start s)).1.answer = images image rest := by
  have hk : rest.length ≤ (Buffered.navigation (producer n image)).capacity (.start s) + 1 :=
    Nat.le_succ_of_le (Nat.le_trans hlength (Nat.le_add_left _ _))
  rw [Navigation.answer_drain, Buffered.replies_next_start]
  exact collected_draws hn hI hs (Nat.le_succ_of_le hlength) hk

end MapEach

end HyperQuery
