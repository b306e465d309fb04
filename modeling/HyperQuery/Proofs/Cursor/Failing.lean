import HyperQuery.Proofs.Cursor.Denotation
import HyperQuery.Proofs.Cursor.Outcomes

/-!
# Searches that fail

A search that fails in a buffer changes its source and nothing else (`source_of_fails_goTo`). Steps forward find what
has been seen and lies ahead, and then what the source answers until it has had nothing (`Producer.draws`). So two
buffers that differ in their sources find the same exactly if they have nothing to pull, or their sources answer the
same (`replies_next_iff`).
-/

namespace HyperQuery

variable {σ : Type}

/-! ### What is to come from a buffer -/

namespace Producer

variable {p : Producer σ} {s t : σ} {x : AtomId} {e : QueryError} {k : Nat}

/-- What the producer answers to so many pulls. Once it has had nothing it is not pulled again. -/
def draws (p : Producer σ) : Nat → σ → List (Except QueryError (Option AtomId))
  | 0, _ => []
  | k + 1, s =>
    match (p.pull s).1.answer with
    | .ok none => .replicate (k + 1) (.ok none)
    | r => r :: draws p k (p.pull s).2

theorem draws_of_none (h : p.pull.Gives s none t) : p.draws k s = .replicate k (.ok none) := by
  cases k with
  | zero => rfl
  | succ k => rw [draws, h.1]

theorem draws_of_some (h : p.pull.Gives s (some x) t) : p.draws (k + 1) s = .ok (some x) :: p.draws k t := by
  rw [draws, h.1, h.2]

theorem draws_of_error (h : p.pull.Fails s e t) : p.draws (k + 1) s = .error e :: p.draws k t := by
  rw [draws, h.1, h.2]

/-- From states in which the first pull has the same answer and leads to the same state, the same is drawn. -/
theorem draws_congr (h : Move.Agree (· = ·) p.pull p.pull s t) : p.draws k s = p.draws k t := by
  cases k with
  | zero => rfl
  | succ k => rw [draws, draws, h.1, h.2]

end Producer

namespace Navigation

variable {n : Navigation σ} {s t : σ}

theorem length_replies {qs : List Request} : (n.replies qs s).length = qs.length := by
  induction qs generalizing s with
  | nil => rfl
  | cons q qs ih => rw [replies, List.length_cons, ih, List.length_cons]

theorem replies_next_error {e : QueryError} {k : Nat} (h : n.next.Fails s e t) :
    n.replies (.replicate (k + 1) .next) s = .error e :: n.replies (.replicate k .next) t := by
  obtain ⟨hanswer, hstate⟩ : (Request.next.perform n).Fails s e t := h.bind
  rw [List.replicate_succ, replies, hanswer, hstate]

/-- Steps forward find what a cursor yields, and then nothing for once. -/
theorem replies_next_to_end {items rest : List AtomId} {ordered seekable : Bool} {R : List AtomId → σ → Prop}
    (h : n.forward.Yields items ordered seekable R) (hs : R rest s) :
    n.replies (.replicate (rest.length + 1) .next) s = Reply.elements (rest.map some ++ [none]) := by
  induction rest generalizing s with
  | nil =>
    obtain ⟨t, -, hnext, -⟩ := (h.pull hs).cases_nil
    exact replies_next_succ hnext
  | cons x rest ih =>
    obtain ⟨t, hnext, ht⟩ := (h.pull hs).cases_cons
    rw [List.length_cons, replies_next_succ hnext, ih ht]
    rfl

theorem fails_of_replies {key : AtomId} {exact : Bool} {e : QueryError}
    (h : n.replies [.goTo key exact] s = [.error e]) : (n.goTo key exact).Fails s e (n.after [.goTo key exact] s) := by
  obtain ⟨herror, -⟩ := List.cons_eq_cons.mp h
  have hfails : ((Request.goTo key exact).perform n).Fails s e (n.after [.goTo key exact] s) := ⟨herror, rfl⟩
  rcases Move.fails_bind_iff.mp hfails with hfails | ⟨_, _, -, hpure⟩
  · exact hfails
  · exact absurd .pure hpure.not_gives

end Navigation

namespace Buffered

variable {p : Producer σ} {b c : Buffered σ} {t : σ} {i k : Nat}

private theorem outcome_next (hopen : b.closed = false) (hi : b.position.following? = some i) :
    (∃ x d, (next p).Gives b x d ∧ Stepped p b i (.ok x) d) ∨
      ∃ e d, (next p).Fails b e d ∧ Stepped p b i (.error e) d := by
  rcases (next p).gives_or_fails b with ⟨x, d, h⟩ | ⟨e, d, h⟩
  · exact .inl ⟨x, d, h, (satisfies_next hopen hi).gives h⟩
  · exact .inr ⟨e, d, h, (satisfies_next hopen hi).fails h⟩

/-- Where everything seen lies behind it, a buffer finds what its producer answers. -/
private theorem replies_next_pulled (hopen : b.closed = false) (hmore : b.exhausted = false)
    (hi : b.position.following? = some b.seen.length) :
    (navigation p).replies (.replicate k .next) b = (p.draws k b.source).map (Except.map Reply.element) := by
  induction k generalizing b with
  | zero => rfl
  | succ k ih =>
    rcases outcome_next (p := p) hopen hi with ⟨x, d, hnext, hstep⟩ | ⟨e, d, hnext, hstep⟩
    · cases hstep with
      | seen hlt => exact absurd hlt (Nat.lt_irrefl _)
      | exhausted _ h => simp [hmore] at h
      | @pulled x t _ _ hpull =>
        rw [List.getElem?_concat_length] at hnext
        have hi' : (Position.on b.seen.length).following? = some (b.seen ++ [x]).length := by simp [Position.following?]
        have hrest := ih (b := { b with source := t, seen := b.seen ++ [x], position := .on b.seen.length }) hopen hmore
          hi'
        rw [replies_next_succ hnext, hrest, Producer.draws_of_some hpull]
        rfl
      | @ended t _ _ hpull =>
        have hended :
            (navigation p).next.Gives { b with source := t, exhausted := true, position := .afterLast } none _ :=
          gives_next_afterLast hopen rfl
        rw [replies_next_succ hnext, replies_next_of_ended hended, Producer.draws_of_none hpull, List.replicate_succ,
          List.map_cons, List.map_replicate, Reply.elements, List.map_replicate]
        rfl
    · cases hstep with
      | @fails e t _ _ hpull =>
        have hrest := ih (b := { b with source := t }) hopen hmore hi
        rw [Navigation.replies_next_error hnext, hrest, Producer.draws_of_error hpull]
        rfl

/-- From its start on, a buffer finds what its producer answers. -/
theorem replies_next_start {s : σ} :
    (navigation p).replies (.replicate k .next) (.start s) = (p.draws k s).map (Except.map Reply.element) :=
  replies_next_pulled rfl rfl rfl

/-- A buffer finds what it has seen ahead of it, and then what its producer answers. -/
private theorem replies_next_ahead (hopen : b.closed = false) (hmore : b.exhausted = false)
    (hi : b.position.following? = some i) (hle : i ≤ b.seen.length) :
    (navigation p).replies (.replicate ((b.seen.drop i).length + k) .next) b =
      Reply.elements ((b.seen.drop i).map some) ++ (p.draws k b.source).map (Except.map Reply.element) := by
  generalize hahead : b.seen.drop i = ahead
  induction ahead generalizing i b with
  | nil =>
    have hend : i = b.seen.length := Nat.le_antisymm hle (List.drop_eq_nil_iff.mp hahead)
    rw [List.length_nil, Nat.zero_add, replies_next_pulled hopen hmore (hend ▸ hi)]
    rfl
  | cons x ahead ih =>
    have hlt : i < b.seen.length := by
      have hne : b.seen.drop i ≠ [] := by simp [hahead]
      exact Nat.lt_of_not_le fun h => hne (List.drop_eq_nil_iff.mpr h)
    have hx : b.seen[i]? = some x := AtomSet.getElem?_of_drop hahead
    rcases outcome_next (p := p) hopen hi with ⟨y, d, hnext, hstep⟩ | ⟨e, d, hnext, hstep⟩
    · cases hstep with
      | seen _ =>
        rw [hx] at hnext
        rw [List.length_cons, Nat.succ_add, replies_next_succ hnext,
          ih (b := { b with position := .on i }) hopen hmore rfl hlt (AtomSet.drop_succ_of_drop hahead)]
        rfl
      | exhausted h | pulled h | ended h => exact absurd hlt h
    · cases hstep with
      | fails h => exact absurd hlt h

private theorem injective_reply : Function.Injective (Except.map Reply.element : Except QueryError _ → _) := by
  intro r r' h
  cases r <;> cases r' <;> simp_all [Except.map]

/-- Two buffers that differ in their sources only, and are to pull from them, find the same exactly if the sources
answer the same. -/
private theorem replies_next_eq_iff (hopen : b.closed = false) (hmore : b.exhausted = false)
    (hi : b.position.following? = some i) (hle : i ≤ b.seen.length) :
    (∀ k, (navigation p).replies (.replicate k .next) { b with source := t } =
        (navigation p).replies (.replicate k .next) b) ↔
      ∀ k, p.draws k t = p.draws k b.source := by
  have hahead (k : Nat) := replies_next_ahead (p := p) (k := k) hopen hmore hi hle
  have hahead' (k : Nat) := replies_next_ahead (p := p) (b := { b with source := t }) (k := k) hopen hmore hi hle
  constructor
  · intro h k
    have hall := h ((b.seen.drop i).length + k)
    rw [hahead, hahead'] at hall
    exact (List.map_inj_right fun _ _ heq => injective_reply heq).mp (List.append_cancel_left hall)
  · intro h k
    have hall : (navigation p).replies (.replicate ((b.seen.drop i).length + k) .next) { b with source := t } =
        (navigation p).replies (.replicate ((b.seen.drop i).length + k) .next) b := by
      rw [hahead, hahead', h]
    rw [Nat.add_comm, ← List.replicate_append_replicate, Navigation.replies_append, Navigation.replies_append] at hall
    exact List.append_inj_left hall (by rw [Navigation.length_replies, Navigation.length_replies])

private theorem gives_next_exhausted (hopen : b.closed = false) (hexhausted : b.exhausted = true)
    (hi : b.position.following? = some i) :
    (next p).Gives b b.seen[i]? { b with position := stop b.seen.length i } := by
  rcases outcome_next (p := p) hopen hi with ⟨x, d, hnext, hstep⟩ | ⟨e, d, hnext, hstep⟩
  · cases hstep with
    | seen hlt =>
      rw [stop, if_pos hlt]
      exact hnext
    | exhausted hlt =>
      rw [stop, if_neg hlt, List.getElem?_eq_none_iff.mpr (Nat.le_of_not_lt hlt)]
      exact hnext
    | pulled _ h | ended _ h => simp [hexhausted] at h
  · cases hstep with
    | fails _ h => simp [hexhausted] at h

/-- The buffer pulls nothing more from its source, however many steps follow. -/
def Spent (b : Buffered σ) : Prop := b.closed = true ∨ b.position = .afterLast ∨ b.exhausted = true

/-- The buffers differ only in their sources, from which they pull nothing more. -/
def Indifferent (c d : Buffered σ) : Prop := Spent d ∧ ∃ t, c = { d with source := t }

private theorem Spent.agree_next (h : Spent b) :
    Move.Agree Indifferent (next p) (next p) { b with source := t } b := by
  rcases b.closed.eq_false_or_eq_true with hclosed | hclosed
  · exact Move.Fails.agree (V := Indifferent) (fails_closed hclosed) (fails_closed hclosed) ⟨h, t, rfl⟩
  · rcases hi : b.position.following? with _ | i
    · have hposition := following?_eq_none hi
      exact Move.Gives.agree (V := Indifferent) (gives_next_afterLast hclosed hposition)
        (gives_next_afterLast hclosed hposition) ⟨h, t, rfl⟩
    · have hexhausted : b.exhausted = true := by
        refine (h.resolve_left (by simp [hclosed])).resolve_left fun hposition => ?_
        rw [hposition] at hi
        cases hi
      have hnext := gives_next_exhausted (p := p) (b := { b with source := t }) hclosed hexhausted hi
      exact Move.Gives.agree (V := Indifferent) hnext (gives_next_exhausted hclosed hexhausted hi)
        ⟨.inr (.inr hexhausted), t, rfl⟩

private theorem Spent.replies_next (h : Spent b) :
    (navigation p).replies (.replicate k .next) { b with source := t } =
      (navigation p).replies (.replicate k .next) b := by
  have hsimulates : (navigation p).Simulates (navigation p) Indifferent (· = .next) := by
    rintro _ d _ rfl ⟨h, t, rfl⟩
    exact h.agree_next.bind fun _ _ _ h => .pure h
  exact hsimulates.replies_eq (fun q hq => List.eq_of_mem_replicate hq) ⟨h, t, rfl⟩

/-- Two buffers that differ in their sources only find the same exactly if they do not pull from them any more, or the
sources answer the same. -/
theorem replies_next_iff (hb : b.closed = true ∨ Standing b) :
    (∀ k, (navigation p).replies (.replicate k .next) { b with source := t } =
        (navigation p).replies (.replicate k .next) b) ↔ Spent b ∨ ∀ k, p.draws k t = p.draws k b.source := by
  by_cases hspent : Spent b
  · simp only [hspent, true_or, iff_true]
    exact fun _ => hspent.replies_next
  · obtain ⟨hopen, hposition, hmore⟩ : b.closed = false ∧ b.position ≠ .afterLast ∧ b.exhausted = false := by
      simpa [Spent] using hspent
    rcases hi : b.position.following? with _ | i
    · exact absurd (following?_eq_none hi) hposition
    · have hstanding : Standing b := hb.resolve_left (by simp [hopen])
      simp only [hspent, false_or]
      exact replies_next_eq_iff hopen hmore hi (hstanding.following_le hi)

/-! ### What a failing search changes -/

variable {key : AtomId} {exact : Bool} {e : QueryError} {d : Buffered σ}

private theorem Restored.source_of_error (h : Restored p b (.error e) d) : ∃ t, d = { b with source := t } := by
  cases h with
  | rewindFails | seekFails | drainFails => exact ⟨_, rfl⟩

/-- A search that fails changes nothing but the source. -/
theorem source_of_fails_goTo (h : (goTo p key exact).Fails b e d) : ∃ t, d = { b with source := t } := by
  cases satisfies_goTo.fails h with
  | refused => exact ⟨b.source, rfl⟩
  | seekFails => exact ⟨_, rfl⟩
  | backFails _ _ hback =>
    obtain ⟨t, rfl⟩ := hback.source_of_error
    exact ⟨t, rfl⟩

private theorem keeps_trivial : p.Keeps (fun _ => True) fun _ => True where
  pull _ := Move.satisfies_iff.mpr (by simp)
  seek _ _ := Move.satisfies_iff.mpr (by simp)
  rewind _ := Move.satisfies_iff.mpr (by simp)

/-- In every state that requests lead to, the buffer stands on something that it has seen, unless it is closed. -/
theorem standing_after (p : Producer σ) (s : σ) (qs : List Request) :
    let b := (navigation p).after qs (.start s)
    b.closed = true ∨ Standing b :=
  Or.imp id Sound.standing (kept_start keeps_trivial trivial qs)

end Buffered

end HyperQuery
