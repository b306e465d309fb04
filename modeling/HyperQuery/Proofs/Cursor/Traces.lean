import HyperQuery.Proofs.Cursor.Intersection
import HyperQuery.Proofs.Cursor.Stepping

/-!
# What cursors have found so far

What a composite cursor has found tells what its parts have found, whatever the parts are and whether or not they fail
on the way. The handles that a producer has answered so far are a trace of it (`Producer.Traces`). An intersection answers
what its left side has answered before, and so does a filter with its base, in the same order (`Follows`). So neither
repeats a handle unless that side or base does (`Producer.Distinct`). A mapping answers images of what its base has
answered (`MapEach.exists_traces`), and a union answers no more than its sides do (`UnionState.exists_traces`).

Intersections seek, but only for keys above the handle that was found last. Such seeks go forward in an ordered cursor,
and fail in the others that are offered to be sought.
-/

namespace HyperQuery

variable {σ τ : Type}

/-! ### Traces -/

/-- The producer answers the handle: it is pulled or, if seeks are counted, sought for a key above the handle that it
answered last. -/
inductive Producer.Advances (p : Producer σ) (seeks : Bool) (last? : Option AtomId) (s : σ) (x : AtomId) (t : σ) : Prop
  | pull (h : p.pull.Gives s (some x) t)
  | seek {last key : AtomId} (hseeks : seeks = true) (hlast : last? = some last) (hkey : last < key)
    (h : (p.seek key).Gives s (some x) t)

/-- From the state `s` on the producer has answered the handles, one after the other, and is in the state `t`. -/
inductive Producer.Traces (p : Producer σ) (seeks : Bool) (s : σ) : List AtomId → σ → Prop
  | start : Traces p seeks s [] s
  | advance {xs : List AtomId} {x : AtomId} {t u : σ} (h : Traces p seeks s xs t)
    (hx : p.Advances seeks xs.getLast? t x u) : Traces p seeks s (xs ++ [x]) u

/-- From the state on the producer answers no handle twice. -/
def Producer.Distinct (p : Producer σ) (seeks : Bool) (s : σ) : Prop := ∀ xs t, p.Traces seeks s xs t → xs.Nodup

namespace Producer

variable {p : Producer σ} {q : Producer τ} {seeks seeks' : Bool} {s s' : σ} {t t' : τ} {xs : List AtomId} {x : AtomId}

theorem Advances.mono {last? : Option AtomId} (hseeks : seeks = true → seeks' = true)
    (h : p.Advances seeks last? s x s') : p.Advances seeks' last? s x s' := by
  cases h with
  | pull h => exact .pull h
  | seek h hlast hkey hseek => exact .seek (hseeks h) hlast hkey hseek

theorem Traces.mono (hseeks : seeks = true → seeks' = true) (h : p.Traces seeks s xs s') : p.Traces seeks' s xs s' := by
  induction h with
  | start => exact .start
  | advance _ hx ih => exact ih.advance (hx.mono hseeks)

theorem Distinct.mono (h : p.Distinct seeks s) (hseeks : seeks' = true → seeks = true) : p.Distinct seeks' s :=
  fun xs t htrace => h xs t (htrace.mono hseeks)

/-! ### Following another producer -/

/-- Whenever the first producer answers a handle, the second one has just answered it, perhaps after others. The relation
on their states may depend on the last handle. -/
def Follows (p : Producer σ) (seeks : Bool) (q : Producer τ) (seeks' : Bool) (t : τ)
    (V : Option AtomId → σ → τ → Prop) : Prop :=
  ∀ xs u s x s', q.Traces seeks' t xs u → V xs.getLast? s u → p.Advances seeks xs.getLast? s x s' →
    ∃ before u', q.Traces seeks' t (before ++ [x]) u' ∧ V (some x) s' u' ∧ xs.Sublist before

variable {V : Option AtomId → σ → τ → Prop}

/-- What the first producer has answered, the second one has answered in the same order. -/
theorem Follows.exists_traces (h : p.Follows seeks q seeks' t V) (hV : V none s t) (htrace : p.Traces seeks s xs s') :
    ∃ ys t', q.Traces seeks' t ys t' ∧ V xs.getLast? s' t' ∧ xs.Sublist ys ∧ xs.getLast? = ys.getLast? := by
  induction htrace with
  | start => exact ⟨[], t, .start, hV, .refl _, rfl⟩
  | @advance xs x s' s'' _ hx ih =>
    obtain ⟨ys, u, hys, hV, hsublist, hlast⟩ := ih
    rw [hlast] at hV hx
    obtain ⟨before, u', hbefore, hV, hmore⟩ := h ys u _ x _ hys hV hx
    refine ⟨_, u', hbefore, ?_, (hsublist.trans hmore).append_right [x], ?_⟩
    · simpa using hV
    · simp

theorem Follows.distinct (h : p.Follows seeks q seeks' t V) (hV : V none s t) (hq : q.Distinct seeks' t) :
    p.Distinct seeks s := by
  intro xs s' htrace
  obtain ⟨ys, t', hys, -, hsublist, -⟩ := h.exists_traces hV htrace
  exact (hq ys t' hys).sublist hsublist

/-! ### Producers that yield a list -/

section Yields

variable {items rest : List AtomId} {ordered seekable : Bool} {R : List AtomId → σ → Prop}

private theorem pairwise_of_pull {r : AtomId → AtomId → Prop} (h : p.Yields items ordered seekable R) (hR : R rest s)
    (hxs : (xs ++ rest).Pairwise r) (hx : p.pull.Gives s (some x) s') :
    ∃ rest', R rest' s' ∧ (xs ++ [x] ++ rest').Pairwise r := by
  cases rest with
  | nil =>
    obtain ⟨u, -, hnone, -⟩ := (h.pull hR).cases_nil
    exact nomatch (hnone.unique hx).1
  | cons y rest =>
    obtain ⟨u, hgives, hR'⟩ := (h.pull hR).cases_cons
    obtain ⟨hy, rfl⟩ := hgives.unique hx
    cases hy
    exact ⟨rest, hR', by simpa using hxs⟩

/-- A producer that cannot be sought with success yields no handle twice. -/
theorem Yields.distinct (h : p.Yields items ordered seekable R) (hR : R items s) (hitems : items.Nodup)
    (hseek : seeks = true → ∀ {rest s key x t}, R rest s → ¬ (p.seek key).Gives s (some x) t) : p.Distinct seeks s := by
  have hall : ∀ xs t, p.Traces seeks s xs t → ∃ rest, R rest t ∧ (xs ++ rest).Nodup := by
    intro xs t htrace
    induction htrace with
    | start => exact ⟨items, hR, hitems⟩
    | advance _ hx ih =>
      obtain ⟨rest, hR, hxs⟩ := ih
      cases hx with
      | pull hpull => exact pairwise_of_pull h hR hxs hpull
      | seek hseeks _ _ hgives => exact absurd hgives (hseek hseeks hR)
  intro xs t htrace
  obtain ⟨rest, -, hxs⟩ := hall xs t htrace
  exact (List.pairwise_append.mp hxs).1

private theorem ascending_of_seek {last key : AtomId} (h : p.Yields items true true R) (hR : R rest s)
    (hxs : (xs ++ rest).Pairwise (· < ·)) (hlast : xs.getLast? = some last) (hkey : last < key)
    (hx : (p.seek key).Gives s (some x) s') : ∃ rest', R rest' s' ∧ (xs ++ [x] ++ rest').Pairwise (· < ·) := by
  have hdraw := h.seek rfl rfl key hR
  rcases hup : AtomSet.upFrom key items with _ | ⟨y, rest'⟩
  · rw [hup] at hdraw
    obtain ⟨u, -, hnone, -⟩ := hdraw.cases_nil
    exact nomatch (hnone.unique hx).1
  rw [hup] at hdraw
  obtain ⟨u, hgives, hR'⟩ := hdraw.cases_cons
  obtain ⟨hy, rfl⟩ := hgives.unique hx
  cases hy
  refine ⟨rest', hR', ?_⟩
  rw [List.append_assoc, List.singleton_append, ← hup]
  obtain ⟨before, rfl⟩ := List.getLast?_eq_some_iff.mp hlast
  obtain ⟨hbefore, -, -⟩ := List.pairwise_append.mp hxs
  refine List.pairwise_append.mpr ⟨hbefore, (h.ascending rfl).filter _, fun y hy z hz => ?_⟩
  have hyle : y ≤ last := by
    rcases List.mem_append.mp hy with hy | hy
    · exact Nat.le_of_lt ((List.pairwise_append.mp hbefore).2.2 y hy last (by simp))
    · exact Nat.le_of_eq (List.mem_singleton.mp hy)
  exact Nat.lt_of_le_of_lt hyle (Nat.lt_of_lt_of_le hkey (AtomSet.mem_upFrom.mp hz).2)

/-- A producer in ascending order yields no handle twice, even if it is sought for keys to come. -/
theorem Yields.distinct_of_ordered (h : p.Yields items true true R) (hR : R items s) : p.Distinct seeks s := by
  have hall : ∀ xs t, p.Traces seeks s xs t → ∃ rest, R rest t ∧ (xs ++ rest).Pairwise (· < ·) := by
    intro xs t htrace
    induction htrace with
    | start => exact ⟨items, hR, h.ascending rfl⟩
    | advance _ hx ih =>
      obtain ⟨rest, hR, hxs⟩ := ih
      cases hx with
      | pull hpull => exact pairwise_of_pull h hR hxs hpull
      | seek _ hlast hkey hgives => exact ascending_of_seek h hR hxs hlast hkey hgives
  intro xs t htrace
  obtain ⟨rest, -, hxs⟩ := hall xs t htrace
  exact AtomSet.nodup_of_ascending (List.pairwise_append.mp hxs).1

end Yields

end Producer

/-! ### Steps forward -/

namespace Navigation

variable {n : Navigation σ} {s t : σ}

/-- What steps forward find as long as they succeed is a trace. -/
theorem Ends.exists_traces {I : σ → Prop} {found : List (Option AtomId)} (hn : n.Ends I) (hI : I s)
    (h : n.replies (.replicate found.length .next) s = Reply.elements found) :
    ∃ t, n.forward.Traces false s (found.filterMap id) t := by
  have hall : ∀ (found : List (Option AtomId)) (xs : List AtomId) (u : σ), n.forward.Traces false s xs u → I u →
      n.replies (.replicate found.length .next) u = Reply.elements found →
      ∃ t, n.forward.Traces false s (xs ++ found.filterMap id) t := by
    intro found
    induction found with
    | nil => exact fun xs u htrace _ _ => ⟨u, by simpa using htrace⟩
    | cons x found ih =>
      intro xs u htrace hI h
      obtain ⟨v, hnext, hrest⟩ := replies_next_cons h
      cases x with
      | none =>
        rw [List.filterMap_cons_none rfl, filterMap_eq_nil_of_ended (hn.stays hI hnext) hrest]
        exact ⟨u, by simpa using htrace⟩
      | some x =>
        obtain ⟨t, ht⟩ := ih (xs ++ [x]) v (htrace.advance (.pull hnext)) (hn.next hI hnext) hrest
        exact ⟨t, by simpa using ht⟩
  exact hall found [] s .start hI h

/-- A trace is found by as many steps forward. -/
theorem replies_of_traces {xs : List AtomId} (h : n.forward.Traces false s xs t) :
    n.replies (.replicate xs.length .next) s = Reply.elements (xs.map some) := by
  have hall : n.replies (.replicate xs.length .next) s = Reply.elements (xs.map some) ∧
      n.after (.replicate xs.length .next) s = t := by
    induction h with
    | start => exact ⟨rfl, rfl⟩
    | @advance xs x t u _ hx ih =>
      obtain ⟨hreplies, hafter⟩ := ih
      cases hx with
      | seek hseeks _ _ _ => simp at hseeks
      | pull hnext =>
        have hstep : (Request.next.perform n).Gives t (.element (some x)) u := Move.Gives.bind hnext .pure
        rw [List.length_append, List.length_singleton, List.replicate_succ', replies_append, after_append, hreplies,
          hafter]
        simp [replies, after, hstep.1, hstep.2, Reply.elements]
  exact hall.1

end Navigation

/-! ### Buffers -/

namespace Buffered

variable {p : Producer σ} {seeks : Bool} {s : σ} {b d : Buffered σ} {x : AtomId}

/-- The open buffer over a producer in the given state that stands on the last handle of what it has seen, or before
anything has been seen. -/
inductive AtEnd : Option AtomId → Buffered σ → σ → Prop
  | start {s : σ} : AtEnd none (Buffered.start s) s
  | on {s : σ} (seen : List AtomId) (last : AtomId) :
    AtEnd (some last) ⟨s, seen ++ [last], .on seen.length, false, false⟩ s

private theorem of_ensureOpen {α : Type} {f : Unit → Move (Buffered σ) α} {y : α} {seen : List AtomId}
    {position : Position} {exhausted : Bool}
    (h : (ensureOpen >>= f).Gives ⟨s, seen, position, exhausted, false⟩ y d) :
    (f ()).Gives ⟨s, seen, position, exhausted, false⟩ y d := by
  obtain ⟨_, c, hopen, h⟩ := Move.gives_bind_iff.mp h
  obtain ⟨-, rfl⟩ := gives_ensureOpen.unique hopen
  exact h

private theorem advances_of_next {last? : Option AtomId} (hb : AtEnd last? b s) (h : (next p).Gives b (some x) d) :
    ∃ t, p.pull.Gives s (some x) t ∧ AtEnd (some x) d t := by
  -- the buffer stands at the end of what it has seen, so it has to pull
  have hpulls : ∀ {seen : List AtomId} {position : Position}, position.following? = some seen.length →
      (next p).Gives ⟨s, seen, position, false, false⟩ (some x) d →
      ∃ t, p.pull.Gives s (some x) t ∧ AtEnd (some x) d t := by
    intro seen position hposition h
    have h := (of_ensureOpen h).of_read
    dsimp only at h
    rw [hposition] at h
    obtain ⟨found, c, hfill, h⟩ := Move.gives_bind_iff.mp h
    have hfill := hfill.of_read
    rw [if_neg (Nat.lt_irrefl _), if_neg Bool.false_ne_true] at hfill
    obtain ⟨y, c', hsource, hfill⟩ := Move.gives_bind_iff.mp hfill
    obtain ⟨t, hpull, rfl⟩ := hsource.of_onPart
    cases y with
    | none =>
      obtain ⟨rfl, rfl⟩ := hfill.unique (Move.Gives.update.bind .pure)
      exact nomatch (h.unique (Move.Gives.update.bind .pure)).1
    | some y =>
      obtain ⟨rfl, rfl⟩ := hfill.unique (Move.Gives.update.bind .pure)
      obtain ⟨hx, rfl⟩ := h.unique (Move.Gives.update.bind (Move.Gives.read.bind .pure))
      obtain rfl : x = y := by simpa using hx
      exact ⟨t, hpull, .on seen x⟩
  cases hb with
  | start => exact hpulls rfl h
  | on seen last => exact hpulls (by simp [Position.following?]) h

private theorem advances_of_seekFrom {last key : AtomId} (hb : AtEnd (some last) b s) (hkey : last < key)
    (h : ((navigation p).seekFrom key).Gives b (some x) d) :
    ∃ t, (p.seek key).Gives s (some x) t ∧ AtEnd (some x) d t := by
  cases hb with
  | on seen last =>
    obtain ⟨landing, c, hgoTo, h⟩ := Move.gives_bind_iff.mp h
    have hgoTo := (of_ensureOpen hgoTo).of_read
    split at hgoTo
    · cases hgoTo.1
    have helsewhere : ¬ (Position.element? (seen ++ [last]) (.on seen.length) == some key) = true := by
      simpa [Position.element?] using Nat.ne_of_lt hkey
    rw [if_neg helsewhere] at hgoTo
    obtain ⟨found, c', hsource, hgoTo⟩ := Move.gives_bind_iff.mp hgoTo
    obtain ⟨t, hseek, rfl⟩ := hsource.of_onPart
    cases found with
    | none =>
      obtain ⟨_, c', -, hgoTo⟩ := Move.gives_bind_iff.mp hgoTo
      obtain ⟨rfl, rfl⟩ := hgoTo.unique .pure
      cases (h.unique .pure).1
    | some y =>
      -- the buffer has started again with what was found
      have hreset : ∃ landing', landing' ≠ .absent ∧ landing = landing' ∧ c = ⟨t, [y], .on 0, false, false⟩ := by
        dsimp only at hgoTo
        split at hgoTo
        · exact ⟨.found, by simp, hgoTo.unique (Move.Gives.update.bind .pure)⟩
        · exact ⟨.closest, by simp, hgoTo.unique (Move.Gives.update.bind .pure)⟩
      obtain ⟨landing', hpresent, rfl, rfl⟩ := hreset
      have hgives : ((do return some (← ((navigation p).current (← Move.read) : Except QueryError AtomId))) :
          Move (Buffered σ) (Option AtomId)).Gives ⟨t, [y], .on 0, false, false⟩ (some x) d := by
        cases landing with
        | absent => exact absurd rfl hpresent
        | found | closest => exact h
      obtain ⟨hx, rfl⟩ := hgives.unique (Move.Gives.read.bind (Move.Gives.bind (.lift rfl) .pure))
      obtain rfl : x = y := by simpa using hx
      exact ⟨t, hseek, .on [] x⟩

/-- A buffer finds what its producer answers. -/
theorem follows (p : Producer σ) (seeks : Bool) (s : σ) :
    (navigation p).forward.Follows seeks p seeks s AtEnd := by
  intro xs t b x d htrace hb h
  have hadvances : ∃ u, p.Advances seeks xs.getLast? t x u ∧ AtEnd (some x) d u := by
    cases h with
    | pull h =>
      obtain ⟨u, hpull, hd⟩ := advances_of_next hb h
      exact ⟨u, .pull hpull, hd⟩
    | seek hseeks hlast hkey h =>
      rw [hlast] at hb
      obtain ⟨u, hseek, hd⟩ := advances_of_seekFrom hb hkey h
      exact ⟨u, .seek hseeks hlast hkey hseek, hd⟩
  obtain ⟨u, hadvances, hd⟩ := hadvances
  exact ⟨xs, u, htrace.advance hadvances, hd, .refl _⟩

theorem distinct_start {p : Producer σ} (h : p.Distinct seeks s) : (navigation p).forward.Distinct seeks (start s) :=
  (follows p seeks s).distinct .start h

end Buffered

/-! ### Intersections -/

namespace Intersection

variable {l : Navigation σ} {r : Navigation τ} {seeks : Bool} {s s' : σ} {before : List AtomId} {x y z : AtomId}

/-- Where the sides meet, the left one has just been. -/
private theorem traces_of_meet {left : AtomId → Move σ (Option AtomId)} {right : AtomId → Move τ (Option AtomId)}
    (hleft : ∀ {x y s z s'}, x < y → (left y).Gives s (some z) s' → l.forward.Advances seeks (some x) s z s')
    {fuel : Nat} {t : τ} {u : σ × τ} (htrace : l.forward.Traces seeks s (before ++ [x]) s')
    (h : (meet left right fuel x y).Gives (s', t) (some z) u) :
    ∃ before', l.forward.Traces seeks s (before' ++ [z]) u.1 ∧ before.Sublist before' := by
  induction fuel generalizing before x y s' t with
  | zero => exact nomatch (h.unique .pure).1
  | succ fuel ih =>
    unfold meet at h
    rcases hcompare : compare x y with _ | _ | _ <;> simp only [hcompare] at h
    · obtain ⟨found, v, hfirst, h⟩ := Move.gives_bind_iff.mp h
      obtain ⟨s'', hmove, rfl⟩ := hfirst.of_onFst
      cases found with
      | none => exact nomatch (h.unique .pure).1
      | some x' =>
        have hadvance := hleft (Nat.compare_eq_lt.mp hcompare) hmove
        obtain ⟨before', hbefore', hmore⟩ := ih (htrace.advance (by simpa using hadvance)) h
        exact ⟨before', hbefore', (List.sublist_append_left before [x]).trans hmore⟩
    · obtain ⟨hz, rfl⟩ := h.unique .pure
      cases hz
      exact ⟨before, htrace, .refl _⟩
    · obtain ⟨found, v, hsecond, h⟩ := Move.gives_bind_iff.mp h
      obtain ⟨t', -, rfl⟩ := hsecond.of_onSnd
      cases found with
      | none => exact nomatch (h.unique .pure).1
      | some y' => exact ih htrace h

/-- Drawing from the left side at first, then from the right side, and aligning the two. -/
private def alignFrom (l : Navigation σ) (r : Navigation τ) (first : Move σ (Option AtomId))
    (second : AtomId → Move τ (Option AtomId)) : Move (σ × τ) (Option AtomId) := do
  match ← Move.onFst first with
  | none => return none
  | some x =>
    match ← Move.onSnd (second x) with
    | none => return none
    | some y => align l r (fuel l r (← Move.read)) x y

/-- An intersection by seeking answers what its left side has answered. -/
theorem zigZag_follows (l : Navigation σ) (r : Navigation τ) (s : σ) :
    (zigZag l r).Follows true l.forward true s fun _ u s' => u.1 = s' := by
  rintro xs _ ⟨s', t⟩ x v htrace rfl h
  -- whichever way it begins, the left side answers first
  have hbegin : ∃ (first : Move σ (Option AtomId)) (second : AtomId → Move τ (Option AtomId)),
      (∀ {z s''}, first.Gives s' (some z) s'' → l.forward.Advances true xs.getLast? s' z s'') ∧
      (alignFrom l r first second).Gives (s', t) (some x) v := by
    cases h with
    | pull h => exact ⟨l.next, fun _ => r.next, fun hz => .pull hz, h⟩
    | @seek last key _ hlast hkey h => exact ⟨l.seekFrom key, r.seekFrom, fun hz => .seek rfl hlast hkey hz, h⟩
  obtain ⟨first, second, hfirst, h⟩ := hbegin
  obtain ⟨found, w, honFst, h⟩ := Move.gives_bind_iff.mp h
  obtain ⟨s'', hmove, rfl⟩ := honFst.of_onFst
  rcases found with _ | z
  · exact nomatch (h.unique .pure).1
  obtain ⟨found, w, honSnd, h⟩ := Move.gives_bind_iff.mp h
  obtain ⟨t', -, rfl⟩ := honSnd.of_onSnd
  rcases found with _ | y
  · exact nomatch (h.unique .pure).1
  have h := h.of_read
  rw [align_eq_meet] at h
  obtain ⟨before, hbefore, hmore⟩ :=
    traces_of_meet (fun hlt hgives => .seek rfl rfl hlt hgives) (htrace.advance (hfirst hmove)) h
  exact ⟨before, v.1, hbefore, rfl, hmore⟩

/-- An intersection by reading side by side answers what its left side has answered. -/
theorem sortedMerge_follows (l : Navigation σ) (r : Navigation τ) (seeks : Bool) (s : σ) :
    (sortedMerge l r).Follows seeks l.forward false s fun _ u s' => u.1 = s' := by
  rintro xs _ ⟨s', t⟩ x v htrace rfl h
  cases h with
  | seek _ _ _ h => exact nomatch h.1
  | pull h =>
    obtain ⟨first, w, honFst, h⟩ := Move.gives_bind_iff.mp h
    obtain ⟨s'', hmove, rfl⟩ := honFst.of_onFst
    obtain ⟨second, w, honSnd, h⟩ := Move.gives_bind_iff.mp h
    obtain ⟨t', -, rfl⟩ := honSnd.of_onSnd
    match first, second with
    | none, _ => exact nomatch (h.unique .pure).1
    | some _, none => exact nomatch (h.unique .pure).1
    | some z, some y =>
      have h := h.of_read
      rw [advance_eq_meet] at h
      obtain ⟨before, hbefore, hmore⟩ := traces_of_meet (fun _ hgives => .pull hgives) (htrace.advance (.pull hmove)) h
      exact ⟨before, v.1, hbefore, rfl, hmore⟩

end Intersection

/-! ### Filters -/

namespace Filter

variable {base : Navigation σ} {tests : Tester τ} {seeks : Bool} {s : σ} {t : τ}

private theorem traces_of_pullPassing {fuel : Nat} {drawn : List AtomId} {s' : σ} {x : AtomId} {u : σ × τ}
    (htrace : base.forward.Traces seeks s drawn s') (h : (pullPassing base tests fuel).Gives (s', t) (some x) u) :
    ∃ before, base.forward.Traces seeks s (before ++ [x]) u.1 ∧ drawn.Sublist before := by
  induction fuel generalizing drawn s' t with
  | zero => exact nomatch (h.unique .pure).1
  | succ fuel ih =>
    obtain ⟨found, v, hfirst, h⟩ := Move.gives_bind_iff.mp h
    obtain ⟨s'', hmove, rfl⟩ := hfirst.of_onFst
    rcases found with _ | z
    · exact nomatch (h.unique .pure).1
    have hdrawn := htrace.advance (.pull hmove)
    obtain ⟨passed, v, hsecond, h⟩ := Move.gives_bind_iff.mp h
    obtain ⟨t', -, rfl⟩ := hsecond.of_onSnd
    cases passed with
    | true =>
      obtain ⟨hx, rfl⟩ := h.unique .pure
      cases hx
      exact ⟨drawn, hdrawn, .refl _⟩
    | false =>
      obtain ⟨before, hbefore, hmore⟩ := ih hdrawn h
      exact ⟨before, hbefore, (List.sublist_append_left drawn [z]).trans hmore⟩

/-- A filter answers what its base has answered. -/
theorem follows (base : Navigation σ) (tests : Tester τ) (seeks : Bool) (s : σ) :
    (producer base tests).Follows seeks base.forward seeks s fun _ u s' => u.1 = s' := by
  rintro xs _ ⟨s', t⟩ x v htrace rfl h
  cases h with
  | pull h =>
    obtain ⟨before, hbefore, hmore⟩ := traces_of_pullPassing htrace h.of_read
    exact ⟨before, v.1, hbefore, rfl, hmore⟩
  | seek hseeks hlast hkey h =>
    obtain ⟨found, w, hfirst, h⟩ := Move.gives_bind_iff.mp h
    obtain ⟨s'', hmove, rfl⟩ := hfirst.of_onFst
    rcases found with _ | z
    · exact nomatch (h.unique .pure).1
    have hdrawn := htrace.advance (.seek hseeks hlast hkey hmove)
    obtain ⟨passed, w, hsecond, h⟩ := Move.gives_bind_iff.mp h
    obtain ⟨t', -, rfl⟩ := hsecond.of_onSnd
    cases passed with
    | true =>
      obtain ⟨hx, rfl⟩ := h.unique .pure
      cases hx
      exact ⟨xs, _, hdrawn, rfl, .refl _⟩
    | false =>
      obtain ⟨before, hbefore, hmore⟩ := traces_of_pullPassing hdrawn (Move.Gives.of_read h)
      exact ⟨before, v.1, hbefore, rfl, (List.sublist_append_left xs [z]).trans hmore⟩

end Filter

/-! ### Mappings -/

namespace MapEach

variable {base : Navigation σ} {image : AtomId → Metered (Option AtomId)} {f : AtomId → Option AtomId} {s s' t : σ}

private theorem traces_of_pullImage {fuel : Nat} {drawn : List AtomId} {y : AtomId}
    (htrace : base.forward.Traces false s drawn s') (h : (pullImage base image fuel).Gives s' (some y) t) :
    ∃ before x, base.forward.Traces false s (before ++ [x]) t ∧ drawn.Sublist before ∧ (image x).answer = .ok (some y) := by
  induction fuel generalizing drawn s' with
  | zero => exact nomatch (h.unique .pure).1
  | succ fuel ih =>
    obtain ⟨found, s'', hmove, h⟩ := Move.gives_bind_iff.mp h
    rcases found with _ | x
    · exact nomatch (h.unique .pure).1
    have hdrawn := htrace.advance (.pull hmove)
    obtain ⟨y?, u, ⟨himage, rfl⟩, h⟩ := Move.gives_bind_iff.mp h
    cases y? with
    | some y' =>
      obtain ⟨hy, rfl⟩ := h.unique .pure
      cases hy
      exact ⟨drawn, x, hdrawn, .refl _, himage⟩
    | none =>
      obtain ⟨before, z, hbefore, hmore, hz⟩ := ih hdrawn h
      exact ⟨before, z, hbefore, (List.sublist_append_left drawn [x]).trans hmore, hz⟩

/-- A mapping answers images of what its base has answered, in the same order. -/
theorem exists_traces {ys : List AtomId} (hf : ∀ x y, (image x).answer = .ok (some y) → f x = some y)
    (h : (producer base image).Traces false s ys t) :
    ∃ xs, base.forward.Traces false s xs t ∧ ys.Sublist (xs.filterMap f) := by
  induction h with
  | start => exact ⟨[], .start, .refl _⟩
  | @advance _ y _ _ _ hy ih =>
    obtain ⟨xs, hxs, hsublist⟩ := ih
    cases hy with
    | seek hseeks _ _ _ => simp at hseeks
    | pull h =>
      obtain ⟨before, x, hbefore, hmore, himage⟩ := traces_of_pullImage hxs h.of_read
      refine ⟨_, hbefore, ?_⟩
      have hlast : [x].filterMap f = [y] := by rw [List.filterMap_cons_some (hf _ _ himage), List.filterMap_nil]
      rw [List.filterMap_append, hlast]
      exact (hsublist.trans (hmore.filterMap f)).append_right _

end MapEach

/-! ### Unions -/

namespace UnionState

variable {l : Navigation σ} {r : Navigation τ} {s : σ} {t : τ} {n : Nat} {u v : UnionState σ τ} {left right : Bool}
  {z : AtomId} {xs : List AtomId}

/-- At least so many handles have been drawn from the sides. A side that is still in use is where that has led to. -/
private def Drawn (l : Navigation σ) (r : Navigation τ) (s : σ) (t : τ) (n : Nat) (left right : Bool)
    (u : UnionState σ τ) : Prop :=
  ∃ as bs s' t', l.forward.Traces false s as s' ∧ r.forward.Traces false t bs t' ∧ n ≤ as.length + bs.length ∧
    (left = true → u.left = s') ∧ (right = true → u.right = t')

private theorem Drawn.mono {m : Nat} {mode : UnionMode} (h : Drawn l r s t n left right u) (hmn : m ≤ n) :
    Drawn l r s t m left right { u with mode := mode } := by
  obtain ⟨as, bs, s', t', has, hbs, hn, hsides⟩ := h
  exact ⟨as, bs, s', t', has, hbs, Nat.le_trans hmn hn, hsides⟩

private theorem Drawn.setMode (h : Drawn l r s t n left right u) (mode : UnionMode) :
    Drawn l r s t n left right ((setMode mode : Move (UnionState σ τ) Unit) u).2 := h

private theorem exists_traces_next {m : Navigation σ} {s s' s'' : σ} {as : List AtomId} {found : Option AtomId}
    (h : m.forward.Traces false s as s') (hnext : m.next.Gives s' found s'') :
    ∃ as' u, m.forward.Traces false s as' u ∧ as'.length = as.length + found.toList.length ∧
      (found.isSome = true → s'' = u) := by
  cases found with
  | none => exact ⟨as, s', h, rfl, by simp⟩
  | some x => exact ⟨as ++ [x], s'', h.advance (.pull hnext), by simp, fun _ => rfl⟩

private theorem Drawn.next_left {found : Option AtomId} (h : Drawn l r s t n true right u)
    (hnext : (onLeft l.next).Gives u found v) :
    Drawn l r s t (n + found.toList.length) found.isSome right v := by
  obtain ⟨as, bs, s', t', has, hbs, hn, hs', ht'⟩ := h
  obtain ⟨s'', hmove, rfl⟩ := hnext.of_onPart
  rw [hs' rfl] at hmove
  obtain ⟨as', s₁, has', hlength, hs₁⟩ := exists_traces_next has hmove
  exact ⟨as', bs, s₁, t', has', hbs, by omega, hs₁, ht'⟩

private theorem Drawn.next_right {found : Option AtomId} (h : Drawn l r s t n left true u)
    (hnext : (onRight r.next).Gives u found v) :
    Drawn l r s t (n + found.toList.length) left found.isSome v := by
  obtain ⟨as, bs, s', t', has, hbs, hn, hs', ht'⟩ := h
  obtain ⟨t'', hmove, rfl⟩ := hnext.of_onPart
  rw [ht' rfl] at hmove
  obtain ⟨bs', t₁, hbs', hlength, ht₁⟩ := exists_traces_next hbs hmove
  exact ⟨as, bs', s', t₁, has, hbs', by omega, hs', ht₁⟩

/-- What has been drawn from the sides covers what has been answered and the heads. -/
private def Covers (l : Navigation σ) (r : Navigation τ) (s : σ) (t : τ) (n : Nat) (u : UnionState σ τ) : Prop :=
  match u.mode with
  | .merge _ _ false => Drawn l r s t n true true u
  | .merge x y true => Drawn l r s t (n + x.toList.length + y.toList.length) x.isSome y.isSome u
  | .concat _ onRightSide => Drawn l r s t n (!onRightSide) true u

private theorem Covers.exists_drawn (h : Covers l r s t n u) : ∃ m left right, n ≤ m ∧ Drawn l r s t m left right u := by
  unfold Covers at h
  split at h
  · exact ⟨_, _, _, Nat.le_refl n, h⟩
  · exact ⟨_, _, _, by omega, h⟩
  · exact ⟨_, _, _, Nat.le_refl n, h⟩

private theorem covers_start : Covers l r s t 0 (start l r s t) := by
  have hdrawn : Drawn l r s t 0 true true (start l r s t) := ⟨[], [], s, t, .start, .start, by simp, by simp [start]⟩
  have hmode : (start l r s t).mode = .merge none none false ∨ (start l r s t).mode = .concat [] false := by
    unfold start
    split
    · exact .inl rfl
    · exact .inr rfl
  unfold Covers
  rcases hmode with hmode | hmode
  · rw [hmode]
    exact hdrawn
  · rw [hmode]
    exact hdrawn

private theorem covers_takeLeft {x : AtomId} {y : Option AtomId}
    (h : Drawn l r s t (n + 1 + y.toList.length) true y.isSome u) (hpull : (takeLeft l x y).Gives u (some z) v) :
    Covers l r s t (n + 1) v := by
  obtain ⟨next, w, hnext, hpull⟩ := Move.gives_bind_iff.mp hpull
  obtain ⟨-, rfl⟩ := hpull.unique (Move.Gives.update.bind .pure)
  exact (h.next_left hnext).mono (by omega)

private theorem covers_takeRight {x : Option AtomId} {y : AtomId}
    (h : Drawn l r s t (n + x.toList.length + 1) x.isSome true u) (hpull : (takeRight r x y).Gives u (some z) v) :
    Covers l r s t (n + 1) v := by
  obtain ⟨next, w, hnext, hpull⟩ := Move.gives_bind_iff.mp hpull
  obtain ⟨-, rfl⟩ := hpull.unique (Move.Gives.update.bind .pure)
  exact (h.next_right hnext).mono (by omega)

private theorem covers_takeBoth {x : AtomId} (h : Drawn l r s t (n + 1 + 1) true true u)
    (hpull : (takeBoth l r x).Gives u (some z) v) : Covers l r s t (n + 1) v := by
  obtain ⟨next, w, hnext, hpull⟩ := Move.gives_bind_iff.mp hpull
  obtain ⟨_, w', ⟨-, rfl⟩, hpull⟩ := Move.gives_bind_iff.mp hpull
  obtain ⟨other, w'', hother, hpull⟩ := Move.gives_bind_iff.mp hpull
  obtain ⟨-, rfl⟩ := hpull.unique (Move.Gives.update.bind .pure)
  have hleft := (h.next_left hnext).setMode (.merge next (some x) true)
  exact (hleft.next_right hother).mono (by omega)

private theorem covers_pullMerged {x y : Option AtomId}
    (h : Drawn l r s t (n + x.toList.length + y.toList.length) x.isSome y.isSome u)
    (hpull : (pullMerged l r x y).Gives u (some z) v) : Covers l r s t (n + 1) v := by
  unfold pullMerged at hpull
  split at hpull
  · exact nomatch (hpull.unique .pure).1
  · exact covers_takeLeft h hpull
  · exact covers_takeRight h hpull
  · split at hpull
    · exact covers_takeLeft h hpull
    · exact covers_takeRight h hpull
    · exact covers_takeBoth h hpull

private theorem covers_pullNew {fuel : Nat} {yielded : List AtomId} {onRightSide : Bool}
    (h : Drawn l r s t n (!onRightSide) true u) (hpull : (pullNew l r fuel yielded onRightSide).Gives u (some z) v) :
    Covers l r s t (n + 1) v := by
  induction fuel generalizing yielded onRightSide u with
  | zero => exact nomatch (hpull.unique .pure).1
  | succ fuel ih =>
    unfold pullNew at hpull
    cases onRightSide with
    | true =>
      obtain ⟨found, w, hnext, hpull⟩ := Move.gives_bind_iff.mp hpull
      have hw := h.next_right hnext
      cases found with
      | none => exact nomatch (hpull.unique .pure).1
      | some x =>
        dsimp only at hpull
        split at hpull
        · exact ih (hw.mono (Nat.le_succ n)) hpull
        · obtain ⟨-, rfl⟩ := hpull.unique (Move.Gives.update.bind .pure)
          exact hw.setMode _
    | false =>
      obtain ⟨found, w, hnext, hpull⟩ := Move.gives_bind_iff.mp hpull
      have hw := h.next_left hnext
      cases found with
      | none =>
        obtain ⟨_, w', ⟨-, rfl⟩, hpull⟩ := Move.gives_bind_iff.mp hpull
        have hright : Drawn l r s t n (!true) true _ := hw.setMode (.concat yielded true)
        exact ih hright hpull
      | some x =>
        dsimp only at hpull
        split at hpull
        · have hleft : Drawn l r s t n (!false) true w := hw.mono (Nat.le_succ n)
          exact ih hleft hpull
        · obtain ⟨-, rfl⟩ := hpull.unique (Move.Gives.update.bind .pure)
          exact hw.setMode _

private theorem covers_pull (h : Covers l r s t n u) (hpull : (pull l r).Gives u (some z) v) :
    Covers l r s t (n + 1) v := by
  have hpull := Move.Gives.of_read hpull
  unfold Covers at h
  rcases hmode : u.mode with ⟨leftHead, rightHead, primed⟩ | ⟨yielded, onRightSide⟩
  · rw [hmode] at h hpull
    obtain ⟨heads, w, hprime, hpull⟩ := Move.gives_bind_iff.mp hpull
    cases primed with
    | true =>
      obtain ⟨rfl, rfl⟩ := hprime.unique .pure
      exact covers_pullMerged h hpull
    | false =>
      obtain ⟨x, w₁, hx, hprime⟩ := Move.gives_bind_iff.mp hprime
      obtain ⟨_, w₂, ⟨-, rfl⟩, hprime⟩ := Move.gives_bind_iff.mp hprime
      obtain ⟨y, w₃, hy, hprime⟩ := Move.gives_bind_iff.mp hprime
      obtain ⟨rfl, rfl⟩ := hprime.unique (Move.Gives.update.bind .pure)
      have hleft := (h.next_left hx).setMode (.merge x rightHead false)
      exact covers_pullMerged ((hleft.next_right hy).setMode (.merge x y true)) hpull
  · rw [hmode] at h hpull
    exact covers_pullNew h hpull

/-- A union answers no more handles than its sides do together. -/
theorem exists_traces (h : (producer l r).Traces false (start l r s t) xs u) :
    ∃ as bs s' t', l.forward.Traces false s as s' ∧ r.forward.Traces false t bs t' ∧
      xs.length ≤ as.length + bs.length := by
  have hcovers : Covers l r s t xs.length u := by
    induction h with
    | start => exact covers_start
    | @advance xs x _ _ _ hx ih =>
      cases hx with
      | seek hseeks _ _ _ => simp at hseeks
      | pull hpull =>
        rw [List.length_append]
        exact covers_pull ih hpull
  obtain ⟨m, left, right, hm, as, bs, s', t', has, hbs, hlength, -⟩ := hcovers.exists_drawn
  exact ⟨as, bs, s', t', has, hbs, Nat.le_trans hm hlength⟩

end UnionState

end HyperQuery
