import HyperQuery.Proofs.Cursor.Buffered
import HyperQuery.Proofs.Cursor.Stepping

/-!
# All that a buffer can do

Whatever a producer does, the moves of the buffer over it end in a few ways each: a step forward (`Stepped`), a search
(`Sought`) and the way back after it (`Restored`). A move that fails has changed the source, and nothing else. So what
the producer keeps is kept by every request to the buffer, however many of them fail (`kept_after`).
-/

namespace HyperQuery

variable {σ : Type}

/-- Pulling, seeking and rewinding keep `I`, whether or not they fail, and what they answer is in `P`. -/
structure Producer.Keeps (p : Producer σ) (I : σ → Prop) (P : AtomId → Prop) : Prop where
  pull : ∀ {s}, I s → p.pull.Satisfies (fun r t => I t ∧ ∀ x, r = .ok (some x) → P x) s
  seek : ∀ {s} (key), I s → (p.seek key).Satisfies (fun r t => I t ∧ ∀ x, r = .ok (some x) → P x) s
  rewind : ∀ {s}, I s → p.rewind.Satisfies (fun _ t => I t) s

namespace Buffered

variable {p : Producer σ} {b : Buffered σ} {i : Nat} {key : AtomId} {exact : Bool} {α β : Type}

theorem satisfies_onSource_bind {m : Move σ α} {f : α → Move (Buffered σ) β}
    {Q : Except QueryError β → Buffered σ → Prop}
    (hok : ∀ x t, m.Gives b.source x t → (f x).Satisfies Q { b with source := t })
    (herror : ∀ e t, m.Fails b.source e t → Q (.error e) { b with source := t }) :
    (onSource m >>= f).Satisfies Q b := by
  have h : (onSource m).Satisfies (fun r d => ∃ t, d = { b with source := t } ∧
      (∀ x, r = .ok x → m.Gives b.source x t) ∧ ∀ e, r = .error e → m.Fails b.source e t) b := by
    refine Move.satisfies_iff.mpr ⟨fun x u hx => ?_, fun e u he => ?_⟩
    · refine ⟨_, hx.2.symm, fun y hy => ?_, fun e he => by cases he⟩
      cases hy
      exact ⟨hx.1, rfl⟩
    · refine ⟨_, he.2.symm, fun y hy => (by cases hy), fun e' he' => ?_⟩
      cases he'
      exact ⟨he.1, rfl⟩
  refine h.bind ?_ ?_
  · rintro x _ ⟨t, rfl, hx, -⟩
    exact hok x t (hx x rfl)
  · rintro e _ ⟨t, rfl, -, he⟩
    exact herror e t (he e rfl)

theorem satisfies_ensureOpen_bind {f : Unit → Move (Buffered σ) β} {Q : Except QueryError β → Buffered σ → Prop}
    (hopen : b.closed = false → (f ()).Satisfies Q b) (hclosed : b.closed = true → Q (.error .cursorClosed) b) :
    (ensureOpen >>= f).Satisfies Q b := by
  cases h : b.closed with
  | true =>
    have hfails : (ensureOpen >>= f).Fails b .cursorClosed b := fails_closed h
    unfold Move.Satisfies
    rw [hfails.1, hfails.2]
    exact hclosed h
  | false =>
    have hgives : ensureOpen.Satisfies (fun r d => r = .ok () ∧ d = b) b := by
      obtain ⟨s, seen, position, exhausted, closed⟩ := b
      cases h
      exact ⟨rfl, rfl⟩
    refine hgives.bind ?_ ?_
    · rintro _ _ ⟨-, rfl⟩
      exact hopen h
    · rintro _ _ ⟨he, -⟩
      cases he

/-! ### Steps forward -/

/-- How filling up to an index ends. -/
inductive Filled (p : Producer σ) (b : Buffered σ) (i : Nat) : Except QueryError Bool → Buffered σ → Prop
  | seen (hi : i < b.seen.length) : Filled p b i (.ok true) b
  | exhausted (hi : ¬ i < b.seen.length) (h : b.exhausted = true) : Filled p b i (.ok false) b
  | pulled {x : AtomId} {t : σ} (hi : ¬ i < b.seen.length) (h : b.exhausted = false)
    (hpull : p.pull.Gives b.source (some x) t) :
    Filled p b i (.ok true) { b with source := t, seen := b.seen ++ [x] }
  | ended {t : σ} (hi : ¬ i < b.seen.length) (h : b.exhausted = false) (hpull : p.pull.Gives b.source none t) :
    Filled p b i (.ok false) { b with source := t, exhausted := true }
  | fails {e : QueryError} {t : σ} (hi : ¬ i < b.seen.length) (h : b.exhausted = false)
    (hpull : p.pull.Fails b.source e t) : Filled p b i (.error e) { b with source := t }

theorem satisfies_fill : (fill p i).Satisfies (Filled p b i) b := by
  refine Move.Satisfies.read ?_
  split
  · exact .pure (.seen ‹_›)
  · split
    · exact .pure (.exhausted ‹_› ‹_›)
    · have h : b.exhausted = false := by simpa using ‹¬ b.exhausted = true›
      refine satisfies_onSource_bind (fun x t hpull => ?_) fun e t hpull => .fails ‹_› h hpull
      cases x with
      | some x => exact .pulled ‹_› h hpull
      | none => exact .ended ‹_› h hpull

theorem Filled.lt {d : Buffered σ} (h : Filled p b i (.ok true) d) (hi : i ≤ b.seen.length) : i < d.seen.length := by
  cases h with
  | seen hlt => exact hlt
  | pulled => simpa using Nat.lt_succ_of_le hi

/-- How a step of an open buffer ends that leads to an index. -/
inductive Stepped (p : Producer σ) (b : Buffered σ) (i : Nat) : Except QueryError (Option AtomId) → Buffered σ → Prop
  | seen (hi : i < b.seen.length) : Stepped p b i (.ok b.seen[i]?) { b with position := .on i }
  | exhausted (hi : ¬ i < b.seen.length) (h : b.exhausted = true) :
    Stepped p b i (.ok none) { b with position := .afterLast }
  | pulled {x : AtomId} {t : σ} (hi : ¬ i < b.seen.length) (h : b.exhausted = false)
    (hpull : p.pull.Gives b.source (some x) t) :
    Stepped p b i (.ok (b.seen ++ [x])[i]?) { b with source := t, seen := b.seen ++ [x], position := .on i }
  | ended {t : σ} (hi : ¬ i < b.seen.length) (h : b.exhausted = false) (hpull : p.pull.Gives b.source none t) :
    Stepped p b i (.ok none) { b with source := t, exhausted := true, position := .afterLast }
  | fails {e : QueryError} {t : σ} (hi : ¬ i < b.seen.length) (h : b.exhausted = false)
    (hpull : p.pull.Fails b.source e t) : Stepped p b i (.error e) { b with source := t }

theorem satisfies_next (hopen : b.closed = false) (hi : b.position.following? = some i) :
    (next p).Satisfies (Stepped p b i) b := by
  refine satisfies_ensureOpen_bind (fun _ => Move.Satisfies.read ?_) fun h => by simp [hopen] at h
  simp only [hi]
  refine satisfies_fill.bind (fun found d hfilled => ?_) fun e d hfilled => ?_
  · cases hfilled with
    | seen hi => exact .seen hi
    | exhausted hi h => exact .exhausted hi h
    | pulled hi h hpull => exact .pulled hi h hpull
    | ended hi h hpull => exact .ended hi h hpull
  · cases hfilled with
    | fails hi h hpull => exact .fails hi h hpull

theorem Stepped.closed_eq {r : Except QueryError (Option AtomId)} {d : Buffered σ} (h : Stepped p b i r d) :
    d.closed = b.closed := by cases h <;> rfl

/-- Behind the last element a step finds nothing. -/
theorem gives_next_afterLast (hopen : b.closed = false) (h : b.position = .afterLast) : (next p).Gives b none b := by
  obtain ⟨s, seen, position, exhausted, closed⟩ := b
  cases hopen
  cases h
  exact gives_ensureOpen.bind (Move.Gives.read.bind .pure)

/-! ### Searches -/

/-- How going back to where the buffer stands ends. -/
inductive Restored (p : Producer σ) (b : Buffered σ) : Except QueryError Unit → Buffered σ → Prop
  | rewound {t : σ} (h : b.position = .beforeFirst) (hrewind : p.rewind.Gives b.source () t) :
    Restored p b (.ok ()) { b with source := t, seen := [], exhausted := false }
  | rewindFails {e : QueryError} {t : σ} (h : b.position = .beforeFirst) (hrewind : p.rewind.Fails b.source e t) :
    Restored p b (.error e) { b with source := t }
  | sought {i : Nat} {x : AtomId} {y : Option AtomId} {t : σ} (h : b.position = .on i) (hx : b.seen[i]? = some x)
    (hseek : (p.seek x).Gives b.source y t) :
    Restored p b (.ok ()) { b with source := t, seen := [x], position := .on 0, exhausted := false }
  | seekFails {i : Nat} {x : AtomId} {e : QueryError} {t : σ} (h : b.position = .on i) (hx : b.seen[i]? = some x)
    (hseek : (p.seek x).Fails b.source e t) : Restored p b (.error e) { b with source := t }
  | lost {i : Nat} (h : b.position = .on i) (hx : b.seen[i]? = none) : Restored p b (.ok ()) b
  | drained {t : σ} (h : b.position = .afterLast)
    (ht : ∀ I : σ → Prop, (∀ s, I s → I (p.pull s).2) → I b.source → I t) :
    Restored p b (.ok ()) { b with source := t, seen := [], exhausted := true }
  | drainFails {e : QueryError} {t : σ} (h : b.position = .afterLast)
    (ht : ∀ I : σ → Prop, (∀ s, I s → I (p.pull s).2) → I b.source → I t) :
    Restored p b (.error e) { b with source := t }

theorem Restored.closed_eq {r : Except QueryError Unit} {d : Buffered σ} (h : Restored p b r d) :
    d.closed = b.closed := by cases h <;> rfl

/-- Dropping all that there is pulls from the source, and changes nothing else. -/
private theorem satisfies_exhaust (fuel : Nat) :
    (exhaust p fuel).Satisfies (fun _ d => ∃ t, d = { b with source := t } ∧
    ∀ I : σ → Prop, (∀ s, I s → I (p.pull s).2) → I b.source → I t) b := by
  induction fuel generalizing b with
  | zero => exact ⟨b.source, rfl, fun _ _ => id⟩
  | succ fuel ih =>
    have hpulled {t : σ} (ht : (p.pull b.source).2 = t) (I : σ → Prop) (hI : ∀ s, I s → I (p.pull s).2)
        (h : I b.source) : I t := ht ▸ hI _ h
    refine satisfies_onSource_bind (fun x t hpull => ?_) fun e t hpull => ⟨t, rfl, hpulled hpull.2⟩
    cases x with
    | none => exact .pure ⟨t, rfl, hpulled hpull.2⟩
    | some _ =>
      refine ih.imp ?_
      rintro _ _ ⟨u, rfl, hu⟩
      exact ⟨u, rfl, fun I hI h => hu I hI (hpulled hpull.2 I hI h)⟩

theorem satisfies_restore : (restore p).Satisfies (Restored p b) b := by
  refine Move.Satisfies.read ?_
  cases h : b.position with
  | beforeFirst =>
    exact satisfies_onSource_bind (fun _ t hrewind => .update (.rewound h hrewind)) fun e t hrewind =>
      .rewindFails h hrewind
  | on i =>
    rcases hx : b.seen[i]? with _ | x
    · simp only [hx]
      exact .pure (.lost h hx)
    · simp only [hx]
      exact satisfies_onSource_bind (fun _ t hseek => .update (.sought h hx hseek)) fun e t hseek =>
        .seekFails h hx hseek
  | afterLast =>
    refine (satisfies_exhaust _).bind ?_ ?_
    · rintro _ _ ⟨t, rfl, ht⟩
      exact .update (.drained h ht)
    · rintro e _ ⟨t, rfl, ht⟩
      exact .drainFails h ht

/-- How a search ends. It may be refused, find that the buffer stands on the key, land on what the source finds, or go
back. -/
inductive Sought (p : Producer σ) (b : Buffered σ) (key : AtomId) : Except QueryError Landing → Buffered σ → Prop
  | refused {e : QueryError} (h : b.closed = true ∨ p.isRandomAccess b.source = false) : Sought p b key (.error e) b
  | stands : Sought p b key (.ok .found) b
  | seekFails {e : QueryError} {t : σ} (hopen : b.closed = false) (hseek : (p.seek key).Fails b.source e t) :
    Sought p b key (.error e) { b with source := t }
  | lands {x : AtomId} {t : σ} {landing : Landing} (hseek : (p.seek key).Gives b.source (some x) t) :
    Sought p b key (.ok landing) { b with source := t, seen := [x], position := .on 0, exhausted := false }
  | back {y : Option AtomId} {t : σ} {d : Buffered σ} (hseek : (p.seek key).Gives b.source y t)
    (hback : Restored p { b with source := t } (.ok ()) d) : Sought p b key (.ok .absent) d
  | backFails {y : Option AtomId} {t : σ} {e : QueryError} {d : Buffered σ} (hopen : b.closed = false)
    (hseek : (p.seek key).Gives b.source y t) (hback : Restored p { b with source := t } (.error e) d) :
    Sought p b key (.error e) d

theorem Sought.closed_eq {r : Except QueryError Landing} {d : Buffered σ} (h : Sought p b key r d) :
    d.closed = b.closed := by
  cases h with
  | refused | stands | seekFails | lands => rfl
  | back _ hback | backFails _ _ hback => exact hback.closed_eq

theorem satisfies_goTo : (goTo p key exact).Satisfies (Sought p b key) b := by
  refine satisfies_ensureOpen_bind (fun hopen => Move.Satisfies.read ?_) fun h => .refused (.inl h)
  have hback {y : Option AtomId} {t : σ} (hseek : (p.seek key).Gives b.source y t) :
      (do restore p; return Landing.absent : Move (Buffered σ) Landing).Satisfies (Sought p b key)
        { b with source := t } :=
    satisfies_restore.bind (fun _ d h => .pure (.back hseek h)) fun e d h => .backFails hopen hseek h
  split
  · exact .refused (.inr (by simpa using ‹(!p.isRandomAccess b.source) = true›))
  · split
    · exact .pure .stands
    · refine satisfies_onSource_bind (fun y t hseek => ?_) fun e t hseek => .seekFails hopen hseek
      cases y with
      | none => exact hback hseek
      | some x =>
        dsimp only
        split
        · exact .lands hseek
        · split
          · exact .lands hseek
          · exact hback hseek

/-! ### What every request keeps -/

/-- The source is in `I`, what was seen is in `P`, and the buffer stands on something that it has seen. -/
structure Sound (I : σ → Prop) (P : AtomId → Prop) (b : Buffered σ) : Prop where
  source : I b.source
  seen : ∀ x ∈ b.seen, P x
  standing : Standing b

/-- The buffer is sound, or it has been closed. -/
def Kept (I : σ → Prop) (P : AtomId → Prop) (b : Buffered σ) : Prop := b.closed = true ∨ Sound I P b

section Kept

variable {I : σ → Prop} {P : AtomId → Prop} {s t : σ} {position : Position} {d : Buffered σ} {x : AtomId}

theorem Kept.imp (h : Kept I P b) (hclosed : d.closed = b.closed) (hsound : Sound I P b → Sound I P d) : Kept I P d :=
  Or.imp hclosed.trans hsound h

theorem Sound.setSource (h : Sound I P b) (ht : I t) : Sound I P { b with source := t } := ⟨ht, h.seen, h.standing⟩

theorem Sound.moved (h : Sound I P b) (hposition : ∀ i, position = .on i → i < b.seen.length) :
    Sound I P { b with position := position } := ⟨h.source, h.seen, hposition⟩

theorem sound_forget {exhausted : Bool} (ht : I t) (hposition : ∀ i, b.position ≠ .on i) :
    Sound I P { b with source := t, seen := [], exhausted := exhausted } :=
  ⟨ht, by simp, fun i h => absurd h (hposition i)⟩

theorem sound_resetAt (ht : I t) (hx : P x) :
    Sound I P { b with source := t, seen := [x], position := .on 0, exhausted := false } := by
  refine ⟨ht, by simpa using hx, ?_⟩
  rintro _ ⟨⟩
  exact Nat.zero_lt_one

theorem Sound.pulled (h : Sound I P b) (ht : I t) (hx : P x) :
    Sound I P { b with source := t, seen := b.seen ++ [x] } := by
  refine ⟨ht, ?_, fun i hi => ?_⟩
  · intro y hy
    rcases List.mem_append.mp hy with hy | hy
    · exact h.seen y hy
    · exact List.mem_singleton.mp hy ▸ hx
  · have hlt := h.standing i hi
    rw [List.length_append]
    exact Nat.lt_add_right _ hlt

theorem following?_eq_none (h : position.following? = none) : position = .afterLast := by
  cases position with
  | afterLast => rfl
  | beforeFirst | on _ => cases h

variable (hp : p.Keeps I P)

include hp

private theorem kept_pulled (hb : Kept I P b) (h : p.pull.Gives b.source (some x) t) :
    Kept I P { b with source := t, seen := b.seen ++ [x] } := by
  refine hb.imp rfl fun hb => ?_
  obtain ⟨ht, hx⟩ := (hp.pull hb.source).gives h
  exact hb.pulled ht (hx x rfl)

private theorem kept_ended (hb : Kept I P b) (h : p.pull.Gives b.source none t) :
    Kept I P { b with source := t, exhausted := true } :=
  hb.imp rfl fun hb => ⟨((hp.pull hb.source).gives h).1, hb.seen, hb.standing⟩

private theorem kept_pullFails (hb : Kept I P b) {e : QueryError} (h : p.pull.Fails b.source e t) :
    Kept I P { b with source := t } := hb.imp rfl fun hb => hb.setSource ((hp.pull hb.source).fails h).1

private theorem kept_seek (hb : Kept I P b) {y : Option AtomId} (h : (p.seek key).Gives b.source y t) :
    Kept I P { b with source := t } := hb.imp rfl fun hb => hb.setSource ((hp.seek key hb.source).gives h).1

private theorem kept_seekFails (hb : Kept I P b) {e : QueryError} (h : (p.seek key).Fails b.source e t) :
    Kept I P { b with source := t } := hb.imp rfl fun hb => hb.setSource ((hp.seek key hb.source).fails h).1

private theorem kept_filled {r : Except QueryError Bool} (hb : Kept I P b) (h : Filled p b i r d) : Kept I P d := by
  cases h with
  | seen | exhausted => exact hb
  | pulled _ _ hpull => exact kept_pulled hp hb hpull
  | ended _ _ hpull => exact kept_ended hp hb hpull
  | fails _ _ hpull => exact kept_pullFails hp hb hpull

private theorem keeps_pullOne : (pullOne p).Keeps (Kept I P) := by
  intro b hb
  refine satisfies_onSource_bind (Q := fun _ => Kept I P) (fun y t hpull => ?_) fun e t hpull =>
    kept_pullFails hp hb hpull
  cases y with
  | none => exact (kept_ended hp hb hpull :)
  | some x => exact (kept_pulled hp hb hpull :)

private theorem keeps_fillAll (fuel : Nat) : (fillAll p fuel).Keeps (Kept I P) := by
  induction fuel with
  | zero => exact .pure
  | succ fuel ih =>
    refine .bind .read fun b => ?_
    split
    · exact .pure
    · refine .bind (keeps_pullOne hp) fun found => ?_
      split
      · exact ih
      · exact .pure

private theorem keeps_hasNext : (hasNext p).Keeps (Kept I P) := by
  intro b hb
  show (hasNext p).Satisfies (fun _ => Kept I P) b
  refine Move.Satisfies.read ?_
  split
  · exact hb
  · split
    · exact satisfies_fill.imp fun r d h => kept_filled hp hb h
    · exact hb

theorem keeps_next : (next p).Keeps (Kept I P) := by
  intro b hb
  show (next p).Satisfies (fun _ => Kept I P) b
  refine satisfies_ensureOpen_bind (fun hopen => Move.Satisfies.read ?_) fun _ => hb
  split
  · exact hb
  · rename_i i hi
    refine satisfies_fill.bind (fun found d h => ?_) fun e d h => kept_filled hp hb h
    have hd := kept_filled hp hb h
    cases found with
    | false => exact hd.imp rfl fun hd => hd.moved nofun
    | true =>
      refine hd.imp rfl fun hd => hd.moved ?_
      rintro _ ⟨⟩
      have hsound : Sound I P b := hb.resolve_left (by simp [hopen])
      exact h.lt (hsound.standing.following_le hi)

omit hp in
private theorem keeps_prev : (prev : Move (Buffered σ) _).Keeps (Kept I P) := by
  intro b hb
  show prev.Satisfies (fun _ => Kept I P) b
  refine satisfies_ensureOpen_bind (fun _ => Move.Satisfies.read ?_) fun _ => hb
  split
  · rename_i i hi
    refine hb.imp rfl fun h => h.moved ?_
    rintro _ ⟨⟩
    cases hposition : b.position with
    | beforeFirst => simp [hposition, Position.preceding?] at hi
    | on j =>
      have hlt := h.standing j hposition
      rw [hposition] at hi
      cases j with
      | zero => cases hi
      | succ j =>
        cases hi
        exact Nat.lt_of_succ_lt hlt
    | afterLast =>
      rw [hposition] at hi
      simp only [Position.preceding?] at hi
      split at hi
      · cases hi
      · cases hi
        exact Nat.sub_one_lt ‹_›
  · exact hb.imp rfl fun h => h.moved fun _ hposition => by cases hposition

private theorem kept_restored {r : Except QueryError Unit} (hb : Kept I P b) (h : Restored p b r d) : Kept I P d := by
  cases h with
  | rewound h hrewind =>
    exact hb.imp rfl fun hb => sound_forget ((hp.rewind hb.source).gives hrewind) (by simp [h])
  | rewindFails _ hrewind => exact hb.imp rfl fun hb => hb.setSource ((hp.rewind hb.source).fails hrewind)
  | sought _ hx hseek =>
    exact hb.imp rfl fun hb =>
      sound_resetAt ((hp.seek _ hb.source).gives hseek).1 (hb.seen _ (List.mem_of_getElem? hx))
  | seekFails _ _ hseek => exact kept_seekFails hp hb hseek
  | lost => exact hb
  | drained h ht =>
    exact hb.imp rfl fun hb => sound_forget (ht I (fun s hs => (hp.pull hs).1) hb.source) (by simp [h])
  | drainFails h ht => exact hb.imp rfl fun hb => hb.setSource (ht I (fun s hs => (hp.pull hs).1) hb.source)

theorem keeps_goTo : (goTo p key exact).Keeps (Kept I P) := by
  intro b hb
  refine satisfies_goTo.imp (Q := fun _ => Kept I P) fun r d h => ?_
  cases h with
  | refused | stands => exact hb
  | seekFails _ hseek => exact kept_seekFails hp hb hseek
  | @lands x t _ hseek =>
    refine hb.imp rfl fun hb => ?_
    obtain ⟨ht, hx⟩ := (hp.seek _ hb.source).gives hseek
    exact sound_resetAt ht (hx x rfl)
  | back hseek hback | backFails _ hseek hback => exact kept_restored hp (kept_seek hp hb hseek) hback

theorem keeps_beforeFirst : (navigation p).beforeFirst.Keeps (Kept I P) := by
  intro b hb
  show (navigation p).beforeFirst.Satisfies (fun _ => Kept I P) b
  refine satisfies_ensureOpen_bind (fun _ => ?_) fun _ => hb
  refine satisfies_onSource_bind (fun _ t hrewind => ?_) fun e t hrewind =>
    hb.imp rfl fun hb => hb.setSource ((hp.rewind hb.source).fails hrewind)
  have hbegin (hb : Sound I P b) :
      Sound I P { b with source := t, seen := [], exhausted := false, position := .beforeFirst } :=
    ⟨(hp.rewind hb.source).gives hrewind, by simp, nofun⟩
  exact hb.imp rfl hbegin

private theorem keeps_afterLast : (navigation p).afterLast.Keeps (Kept I P) := by
  refine .bind (fun _ => id) fun _ => .bind .read fun b => .bind (keeps_fillAll hp _) fun _ => ?_
  exact fun b hb => hb.imp rfl fun h => h.moved nofun

/-- However many requests fail, the buffer stays sound until it is closed. -/
theorem kept_after (hb : Kept I P b) (qs : List Request) : Kept I P ((navigation p).after qs b) := by
  induction qs generalizing b with
  | nil => exact hb
  | cons q qs ih =>
    refine ih ?_
    cases q with
    | next => exact Move.Keeps.bind (keeps_next hp) (fun _ => .pure) b hb
    | prev => exact Move.Keeps.bind keeps_prev (fun _ => .pure) b hb
    | hasNext => exact Move.Keeps.bind (keeps_hasNext hp) (fun _ => .pure) b hb
    | hasPrev => exact Move.Keeps.bind (fun _ => id) (fun _ => .pure) b hb
    | current => exact Move.Keeps.bind .read (fun _ => .bind .lift fun _ => .pure) b hb
    | goTo key exact => exact Move.Keeps.bind (keeps_goTo hp) (fun _ => .pure) b hb
    | beforeFirst => exact Move.Keeps.bind (keeps_beforeFirst hp) (fun _ => .pure) b hb
    | afterLast => exact Move.Keeps.bind (keeps_afterLast hp) (fun _ => .pure) b hb
    | close =>
      refine .inl ?_
      show (if b.closed then b else _).closed = true
      split
      · assumption
      · rfl

theorem kept_start (hs : I s) (qs : List Request) : Kept I P ((navigation p).after qs (.start s)) :=
  kept_after hp (.inr ⟨hs, by simp [start], standing_start⟩) qs

end Kept

end Buffered

end HyperQuery
