import HyperQuery.Cursor.Buffered
import HyperQuery.Proofs.Cursor.Window

/-!
# Buffers are cursors over windows

Together with what was seen, what is to come from the producer is a window on the items (`Spans`). So a buffer over a
producer of the items mirrors the cursor over that window at the same position (`Views`, `mirrors_window`): pulling moves
an element from the producer to what was seen, and leaves the window. In particular a key that is sought in vain leaves
the producer anywhere, and the buffer brings it back to where it stands itself (`gives_restore`).
-/

namespace HyperQuery

namespace Buffered

variable {σ : Type} {p : Producer σ} {items window : List AtomId} {ordered seekable : Bool}
  {Q : List AtomId → σ → Prop}

/-- The window is what was seen and what is to come from the producer, where `Q` says what is to come from it. From an
exhausted producer nothing is to come, whatever `Q` says. -/
inductive Spans (Q : List AtomId → σ → Prop) : List AtomId → σ → List AtomId → Bool → Prop
  | going {s : σ} {seen rest : List AtomId} (h : Q rest s) : Spans Q (seen ++ rest) s seen false
  | ended {s : σ} {seen rest : List AtomId} (h : Q rest s) : Spans Q seen s seen true

/-- What was seen includes the element at the position, and after the last element there is nothing to come. -/
def Backs (seen : List AtomId) (exhausted : Bool) : Position → Prop
  | .beforeFirst => True
  | .on i => i < seen.length
  | .afterLast => exhausted = true

/-- A buffer over a producer of the items, and the cursor over the window that it spans. -/
inductive Views (items : List AtomId) (Q : List AtomId → σ → Prop) : Buffered σ → SnapshotCursor → Prop
  | opened {window : List AtomId} {s : σ} {seen : List AtomId} {position : Position} {exhausted : Bool}
    (hspans : Spans Q window s seen exhausted) (hbacks : Backs seen exhausted position) (hwindow : window <:+ items) :
    Views items Q ⟨s, seen, position, exhausted, false⟩ ⟨.unordered window, position, false⟩
  | closed {b : Buffered σ} {c : SnapshotCursor} (h : b.closed = true) (h' : c.closed = true) : Views items Q b c

variable {s t : σ} {seen rest : List AtomId} {position : Position} {exhausted closed : Bool} {b : Buffered σ}
  {c : SnapshotCursor}

theorem Spans.to_come (h : Spans Q window s seen exhausted) : ∃ rest, Q rest s := by
  cases h with
  | going h | ended h => exact ⟨_, h⟩

theorem Spans.isPrefix (h : Spans Q window s seen exhausted) : seen <+: window := by
  cases h with
  | going _ => exact List.prefix_append _ _
  | ended _ => exact List.prefix_refl _

theorem Spans.getElem? (h : Spans Q window s seen exhausted) {i : Nat} (hi : i < seen.length) : seen[i]? = window[i]? := by
  obtain ⟨rest, rfl⟩ := h.isPrefix
  rw [List.getElem?_append_left hi]

theorem Spans.pulled {x : AtomId} (h : Q rest s) : Spans Q (seen ++ x :: rest) s (seen ++ [x]) false := by
  rw [List.append_cons]
  exact .going h

theorem Spans.finished (h : Q rest s) : Spans Q (seen ++ []) s seen true := by
  rw [List.append_nil]
  exact .ended h

theorem Backs.mono {seen' : List AtomId} {exhausted' : Bool} (h : Backs seen exhausted position)
    (hseen : seen.length ≤ seen'.length) (hexhausted : exhausted = true → exhausted' = true) :
    Backs seen' exhausted' position := by
  cases position with
  | beforeFirst => trivial
  | on i => exact Nat.lt_of_lt_of_le h hseen
  | afterLast => exact hexhausted h

/-! ### Single steps -/

theorem gives_onSource {α : Type} {m : Move σ α} {x : α} (h : m.Gives s x t) :
    (onSource m).Gives ⟨s, seen, position, exhausted, closed⟩ x ⟨t, seen, position, exhausted, closed⟩ :=
  Move.Gives.onPart h

theorem gives_ensureOpen :
    ensureOpen.Gives ⟨s, seen, position, exhausted, false⟩ () ⟨s, seen, position, exhausted, false⟩ := ⟨rfl, rfl⟩

theorem fails_closed {α : Type} {f : Unit → Move (Buffered σ) α} (h : b.closed = true) :
    (ensureOpen >>= f).Fails b .cursorClosed b := by
  obtain ⟨s, seen, position, exhausted, closed⟩ := b
  cases h
  exact Move.Fails.bind ⟨rfl, rfl⟩

theorem gives_pullOne_some {x : AtomId} (h : p.pull.Gives s (some x) t) :
    (pullOne p).Gives ⟨s, seen, position, exhausted, closed⟩ true ⟨t, seen ++ [x], position, exhausted, closed⟩ :=
  (gives_onSource h).bind (Move.Gives.update.bind .pure)

theorem gives_pullOne_none (h : p.pull.Gives s none t) :
    (pullOne p).Gives ⟨s, seen, position, exhausted, closed⟩ false ⟨t, seen, position, true, closed⟩ :=
  (gives_onSource h).bind (Move.Gives.update.bind .pure)

/-- A buffer over a producer that cannot be sought refuses to be sought. -/
theorem fails_goTo (b : Buffered σ) (key : AtomId) (exact : Bool) (h : p.isRandomAccess b.source = false) :
    ∃ e, (goTo p key exact).Fails b e b := by
  cases hclosed : b.closed with
  | true => exact ⟨_, fails_closed hclosed⟩
  | false =>
    obtain ⟨s, seen, position, exhausted, closed⟩ := b
    cases hclosed
    refine ⟨.unsupported .goToWithoutRandomAccess, gives_ensureOpen.fails_bind (Move.Fails.read ?_)⟩
    simp only [h, Bool.not_false, if_true]
    exact ⟨rfl, rfl⟩

/-! ### Pulling leaves the window -/

/-- A step forward leads at most one beyond what was seen. -/
private theorem following_le (h : Backs seen exhausted position) {i : Nat} (hi : position.following? = some i) :
    i ≤ seen.length := by
  cases position with
  | beforeFirst =>
    cases hi
    exact Nat.zero_le _
  | on j =>
    cases hi
    exact h
  | afterLast => cases hi

/-- The position at an index, or after the last one of so many elements. -/
def stop (length index : Nat) : Position := if index < length then .on index else .afterLast

/-- Filling up to an index that is at most one beyond what was seen answers whether the window reaches that far. -/
private theorem gives_fill (position : Position) (hp : p.Yields items ordered seekable Q) {i : Nat} (hi : i ≤ seen.length)
    (h : Spans Q window s seen exhausted) :
    ∃ t seen' exhausted', (fill p i).Gives ⟨s, seen, position, exhausted, false⟩ (decide (i < window.length))
        ⟨t, seen', position, exhausted', false⟩ ∧ Spans Q window t seen' exhausted' ∧
      (∀ {place}, Backs seen exhausted place → Backs seen' exhausted' place) ∧
      Backs seen' exhausted' (stop window.length i) := by
  by_cases hseen : i < seen.length
  · have hreach : i < window.length := Nat.lt_of_lt_of_le hseen h.isPrefix.length_le
    refine ⟨s, seen, exhausted, Move.Gives.read.bind ?_, h, id, ?_⟩
    · simp only [hseen, hreach, if_true, decide_true]
      exact .pure
    · rw [stop, if_pos hreach]
      exact hseen
  · have hlength : i = seen.length := Nat.le_antisymm hi (Nat.le_of_not_lt hseen)
    cases h with
    | ended h =>
      refine ⟨_, _, true, Move.Gives.read.bind ?_, .ended h, id, ?_⟩
      · simp only [hseen, if_false, if_true, decide_false]
        exact .pure
      · rw [stop, if_neg hseen]
        exact rfl
    | @going s seen rest h =>
      cases rest with
      | nil =>
        have hend : ¬ i < (seen ++ []).length := by simpa using hseen
        obtain ⟨t, _, hpull, hQ⟩ := (hp.pull h).cases_nil
        refine ⟨t, seen, true, Move.Gives.read.bind ?_, .finished hQ, (·.mono (Nat.le_refl _) fun _ => rfl), ?_⟩
        · simp only [hend, hseen, if_false, Bool.false_eq_true, decide_false]
          exact gives_pullOne_none hpull
        · rw [stop, if_neg hend]
          exact rfl
      | cons x rest =>
        have hreach : i < (seen ++ x :: rest).length := by simp [hlength]
        obtain ⟨t, hpull, hQ⟩ := (hp.pull h).cases_cons
        refine ⟨t, seen ++ [x], false, Move.Gives.read.bind ?_, .pulled hQ, (·.mono (by simp) id), ?_⟩
        · simp only [hseen, hreach, if_false, Bool.false_eq_true, decide_true]
          exact gives_pullOne_some hpull
        · rw [stop, if_pos hreach]
          exact hlength ▸ by simp [Backs]

/-- Filling up reaches the end of the window. -/
private theorem gives_fillAll (position : Position) (hp : p.Yields items ordered seekable Q) {fuel : Nat}
    (hfuel : window.length < seen.length + fuel) (h : Spans Q window s seen exhausted) :
    ∃ t, (fillAll p fuel).Gives ⟨s, seen, position, exhausted, false⟩ () ⟨t, window, position, true, false⟩ ∧
      Spans Q window t window true := by
  -- every turn but the last one pulls an element, and the fuel covers what the window has left
  induction fuel generalizing s seen exhausted with
  | zero => exact absurd hfuel (Nat.not_lt.mpr h.isPrefix.length_le)
  | succ fuel ih =>
    cases h with
    | ended h => exact ⟨s, Move.Gives.read.bind .pure, .ended h⟩
    | @going _ _ rest h =>
      cases rest with
      | nil =>
        obtain ⟨t, _, hpull, hQ⟩ := (hp.pull h).cases_nil
        rw [List.append_nil]
        exact ⟨t, Move.Gives.read.bind ((gives_pullOne_none hpull).bind .pure), .ended hQ⟩
      | cons x rest =>
        obtain ⟨t, hpull, hQ⟩ := (hp.pull h).cases_cons
        have hfuel : (seen ++ x :: rest).length < (seen ++ [x]).length + fuel := by
          simp at hfuel ⊢
          omega
        obtain ⟨u, hfill, hspans⟩ := ih hfuel (.pulled hQ)
        exact ⟨u, Move.Gives.read.bind ((gives_pullOne_some hpull).bind hfill), hspans⟩

private theorem gives_exhaust (hp : p.Yields items ordered seekable Q) (seen : List AtomId) (position : Position)
    (exhausted : Bool) (fuel : Nat) (h : Q rest s) :
    ∃ t rest', (exhaust p fuel).Gives ⟨s, seen, position, exhausted, false⟩ ()
        ⟨t, seen, position, exhausted, false⟩ ∧ Q rest' t := by
  induction fuel generalizing s rest with
  | zero => exact ⟨s, rest, .pure, h⟩
  | succ fuel ih =>
    cases rest with
    | nil =>
      obtain ⟨t, rest', hpull, hQ⟩ := (hp.pull h).cases_nil
      exact ⟨t, rest', (gives_onSource hpull).bind .pure, hQ⟩
    | cons x rest =>
      obtain ⟨t, hpull, hQ⟩ := (hp.pull h).cases_cons
      obtain ⟨u, rest', hexhaust, hQ⟩ := ih hQ
      exact ⟨u, rest', (gives_onSource hpull).bind hexhaust, hQ⟩

/-! ### The moves -/

private theorem agree_next (hp : p.Yields items ordered seekable Q) (h : Views items Q b c) :
    Move.Agree (Views items Q) (next p) SnapshotCursor.next b c := by
  cases h with
  | @opened window s seen position exhausted hspans hbacks hwindow =>
    rcases hi : position.following? with _ | i
    · refine Move.Gives.agree ?_ (SnapshotCursor.gives_next_none hi) (.opened hspans hbacks hwindow)
      refine gives_ensureOpen.bind (Move.Gives.read.bind ?_)
      simp only [hi]
      exact .pure
    · obtain ⟨t, seen', exhausted', hfill, hspans', -, hstop⟩ :=
        gives_fill position hp (following_le hbacks hi) hspans
      by_cases hreach : i < window.length
      · rw [stop, if_pos hreach] at hstop
        have hx : window[i]? = some window[i] := List.getElem?_eq_getElem hreach
        refine Move.Gives.agree ?_ (SnapshotCursor.gives_next_some hi hx) (.opened hspans' hstop hwindow)
        refine gives_ensureOpen.bind (Move.Gives.read.bind ?_)
        simp only [hi]
        refine hfill.bind ?_
        simp only [hreach, decide_true, if_true]
        refine Move.Gives.update.bind (Move.Gives.read.bind ?_)
        simp only [hspans'.getElem? hstop, hx]
        exact .pure
      · rw [stop, if_neg hreach] at hstop
        have hx : window[i]? = none := List.getElem?_eq_none_iff.mpr (Nat.le_of_not_lt hreach)
        refine Move.Gives.agree ?_ (SnapshotCursor.gives_next_end hi hx) (.opened hspans' hstop hwindow)
        refine gives_ensureOpen.bind (Move.Gives.read.bind ?_)
        simp only [hi]
        refine hfill.bind ?_
        simp only [hreach, decide_false, Bool.false_eq_true, if_false]
        exact Move.Gives.update.bind .pure
  | closed h h' => exact (fails_closed h).agree (SnapshotCursor.fails_closed h') (.closed h h')

private theorem agree_hasNext (hp : p.Yields items ordered seekable Q) (h : Views items Q b c) :
    Move.Agree (Views items Q) (hasNext p) SnapshotCursor.hasNext b c := by
  cases h with
  | @opened window s seen position exhausted hspans hbacks hwindow =>
    rcases hi : position.following? with _ | i
    · refine Move.Gives.agree ?_ (SnapshotCursor.gives_hasNext_none hi) (.opened hspans hbacks hwindow)
      refine Move.Gives.read.bind ?_
      simp only [hi, Bool.false_eq_true, if_false]
      exact .pure
    · obtain ⟨t, seen', exhausted', hfill, hspans', hkeep, -⟩ :=
        gives_fill position hp (following_le hbacks hi) hspans
      refine Move.Gives.agree ?_ (SnapshotCursor.gives_hasNext_some hi) (.opened hspans' (hkeep hbacks) hwindow)
      refine Move.Gives.read.bind ?_
      simp only [hi, Bool.false_eq_true, if_false]
      exact hfill
  | closed h h' =>
    refine Move.Gives.agree ?_ (SnapshotCursor.gives_hasNext_closed h') (.closed h h')
    refine Move.Gives.read.bind ?_
    simp only [h, if_true]
    exact .pure

/-- A step backward leads to an element that was seen. -/
private theorem backs_preceding (h : Backs seen exhausted position) {i : Nat}
    (hi : position.preceding? seen.length = some i) : Backs seen exhausted (.on i) := by
  cases position with
  | beforeFirst => cases hi
  | on j =>
    cases j with
    | zero => cases hi
    | succ j =>
      cases hi
      exact Nat.lt_of_succ_lt h
  | afterLast =>
    simp only [Position.preceding?] at hi
    split at hi
    · cases hi
    · cases hi
      exact Nat.sub_one_lt ‹_›

/-- Before the position there is nothing in the window that was not seen. -/
private theorem preceding_eq (hspans : Spans Q window s seen exhausted) (hbacks : Backs seen exhausted position) :
    position.preceding? seen.length = position.preceding? window.length := by
  cases position with
  | beforeFirst => rfl
  | on i => cases i <;> rfl
  | afterLast =>
    cases hbacks
    cases hspans
    rfl

private theorem element_eq (hspans : Spans Q window s seen exhausted) (hbacks : Backs seen exhausted position) :
    position.element? seen = position.element? window := by
  cases position with
  | beforeFirst | afterLast => rfl
  | on i => exact hspans.getElem? hbacks

private theorem agree_prev (h : Views items Q b c) : Move.Agree (Views items Q) prev SnapshotCursor.prev b c := by
  cases h with
  | @opened window s seen position exhausted hspans hbacks hwindow =>
    have hlength := preceding_eq hspans hbacks
    rcases hi : position.preceding? seen.length with _ | i
    · refine Move.Gives.agree ?_ (SnapshotCursor.gives_prev_none (hlength.symm.trans hi))
        (.opened hspans trivial hwindow)
      refine gives_ensureOpen.bind (Move.Gives.read.bind ?_)
      simp only [hi]
      exact Move.Gives.update.bind .pure
    · have hbacks' := backs_preceding hbacks hi
      refine Move.Gives.agree ?_ (SnapshotCursor.gives_prev_some (hlength.symm.trans hi))
        (.opened hspans hbacks' hwindow)
      refine gives_ensureOpen.bind (Move.Gives.read.bind ?_)
      simp only [hi, hspans.getElem? hbacks']
      exact Move.Gives.update.bind .pure
  | closed h h' => exact (fails_closed h).agree (SnapshotCursor.fails_closed h') (.closed h h')

private theorem agree_hasPrev (h : Views items Q b c) :
    Move.Agree (Views items Q) hasPrev SnapshotCursor.hasPrev b c := by
  cases h with
  | @opened window s seen position exhausted hspans hbacks hwindow =>
    refine ⟨?_, .opened hspans hbacks hwindow⟩
    show Except.ok (position.preceding? seen.length).isSome = Except.ok (position.preceding? window.length).isSome
    rw [preceding_eq hspans hbacks]
  | closed h h' => exact ⟨by simp [hasPrev, SnapshotCursor.hasPrev, h, h'], .closed h h'⟩

private theorem current_eq (h : Views items Q b c) : current b = SnapshotCursor.current c := by
  cases h with
  | @opened window s seen position exhausted hspans hbacks hwindow =>
    have helement := element_eq hspans hbacks
    rcases hx : position.element? window with _ | x <;>
      simp [current, SnapshotCursor.current, SnapshotCursor.items, Snapshot.unordered, helement, hx]
  | closed h h' => simp [current, SnapshotCursor.current, h, h']

/-! ### Repositioning -/

theorem views_start (h : Q items s) : Views items Q (start s) ⟨.unordered items, .beforeFirst, false⟩ :=
  .opened (.going h : Spans Q ([] ++ items) s [] false) trivial (List.suffix_refl _)

private theorem agree_beforeFirst (hp : p.Yields items ordered seekable Q) (h : Views items Q b c) :
    Move.Agree (Views items Q) (navigation p).beforeFirst (Window.navigation items ordered seekable).beforeFirst b c := by
  cases h with
  | opened hspans hbacks hwindow =>
    obtain ⟨rest, hQ⟩ := hspans.to_come
    obtain ⟨t, hrewind, hQ⟩ := hp.rewind hQ
    refine Move.Gives.agree ?_ (SnapshotCursor.gives_ensureOpen.bind .update) (views_start hQ)
    exact gives_ensureOpen.bind ((gives_onSource hrewind).bind (Move.Gives.update.bind .update))
  | closed h h' => exact (fails_closed h).agree (SnapshotCursor.fails_closed h') (.closed h h')

private theorem Spans.length_lt (hp : p.Yields items ordered seekable Q) (h : Spans Q window s seen exhausted) :
    window.length < seen.length + (p.capacity s + 1) := by
  cases h with
  | ended _ => omega
  | going h =>
    have := hp.length_le h
    rw [List.length_append]
    omega

private theorem agree_afterLast (hp : p.Yields items ordered seekable Q) (h : Views items Q b c) :
    Move.Agree (Views items Q) (navigation p).afterLast SnapshotCursor.navigation.afterLast b c := by
  cases h with
  | @opened window s seen position exhausted hspans hbacks hwindow =>
    obtain ⟨t, hfill, hspans'⟩ := gives_fillAll position hp (hspans.length_lt hp) hspans
    refine Move.Gives.agree ?_ (SnapshotCursor.gives_ensureOpen.bind .update) (.opened hspans' rfl hwindow)
    exact gives_ensureOpen.bind (Move.Gives.read.bind (hfill.bind .update))
  | closed h h' => exact (fails_closed h).agree (SnapshotCursor.fails_closed h') (.closed h h')

/-- After a search in vain the producer is brought back to where the buffer stands. -/
private theorem gives_restore (hp : p.Yields items true true Q) (hspans : Spans Q window s seen exhausted)
    (hbacks : Backs seen exhausted position) (hwindow : window <:+ items) (h : Q rest t) :
    ∃ b, (restore p).Gives ⟨t, seen, position, exhausted, false⟩ () b ∧
      Views items Q b (Window.settled items ⟨.unordered window, position, false⟩) := by
  cases position with
  | beforeFirst =>
    obtain ⟨u, hrewind, hQ⟩ := hp.rewind h
    exact ⟨_, Move.Gives.read.bind ((gives_onSource hrewind).bind .update), views_start hQ⟩
  | on i =>
    have hi : i < window.length := Nat.lt_of_lt_of_le hbacks hspans.isPrefix.length_le
    have hdrop : window.drop i = window[i] :: window.drop (i + 1) := List.drop_eq_getElem_cons hi
    have hsuffix : window[i] :: window.drop (i + 1) <:+ items := hdrop ▸ (List.drop_suffix _ _).trans hwindow
    have hseen : seen[i]? = some window[i] := (hspans.getElem? hbacks).trans (List.getElem?_eq_getElem hi)
    have hdraw := hp.seek rfl rfl window[i] h
    rw [AtomSet.upFrom_head (hp.ascending rfl) hsuffix] at hdraw
    obtain ⟨u, hseek, hQ⟩ := hdraw.cases_cons
    refine ⟨⟨u, [window[i]], .on 0, false, false⟩, Move.Gives.read.bind ?_, ?_⟩
    · simp only [hseen]
      exact (gives_onSource hseek).bind .update
    · show Views items Q _ ⟨.unordered (window.drop i), .on 0, false⟩
      rw [hdrop]
      exact .opened (.going hQ : Spans Q ([window[i]] ++ _) u _ _) (Nat.zero_lt_one) hsuffix
  | afterLast =>
    obtain ⟨u, rest', hexhaust, hQ⟩ :=
      gives_exhaust hp seen .afterLast exhausted (fuel p ⟨t, seen, .afterLast, exhausted, false⟩) h
    exact ⟨_, Move.Gives.read.bind (hexhaust.bind .update), .opened (.ended hQ) rfl List.nil_suffix⟩

private theorem agree_goTo (hp : p.Yields items true true Q) {key : AtomId} {exact : Bool} (h : Views items Q b c) :
    Move.Agree (Views items Q) (goTo p key exact) (Window.goTo items key exact) b c := by
  cases h with
  | @opened window s seen position exhausted hspans hbacks hwindow =>
    obtain ⟨rest, hQ⟩ := hspans.to_come
    have haccess : (!p.isRandomAccess s) = false := by simp [hp.isRandomAccess hQ]
    by_cases hat : position.element? window = some key
    · have hat' : (position.element? seen == some key) = true := by simp [element_eq hspans hbacks, hat]
      refine Move.Gives.agree ?_ (Window.gives_goTo_standing hat) (.opened hspans hbacks hwindow)
      refine gives_ensureOpen.bind (Move.Gives.read.bind ?_)
      simp only [haccess, hat', Bool.false_eq_true, if_false, if_true]
      exact .pure
    · have hat' : (position.element? seen == some key) = false := by simpa [element_eq hspans hbacks] using hat
      have hdraw := hp.seek rfl rfl key hQ
      rcases Window.cases_upFrom items key exact with ⟨x, tail, hup, hx⟩ | hup
      · rw [hup] at hdraw
        obtain ⟨t, hseek, hQ⟩ := hdraw.cases_cons
        have hsuffix : x :: tail <:+ items := hup ▸ AtomSet.upFrom_suffix (hp.ascending rfl)
        refine Move.Gives.agree ?_ (Window.gives_goTo_cons hat hup hx)
          (.opened (.going hQ : Spans Q ([x] ++ tail) t _ _) Nat.zero_lt_one hsuffix)
        refine gives_ensureOpen.bind (Move.Gives.read.bind ?_)
        simp only [haccess, hat', Bool.false_eq_true, if_false]
        refine (gives_onSource hseek).bind ?_
        by_cases hxk : x = key
        · simp only [hxk, if_true]
          exact Move.Gives.update.bind .pure
        · simp only [hxk, hx.resolve_left hxk, if_false, Bool.not_false, if_true]
          exact Move.Gives.update.bind .pure
      · -- what the producer was brought to is not taken, and the buffer goes back
        obtain ⟨t, rest', hseek, hQ, -⟩ := hdraw
        obtain ⟨b, hrestore, hviews⟩ := gives_restore hp hspans hbacks hwindow hQ
        refine Move.Gives.agree ?_ (Window.gives_goTo_absent hat hup) hviews
        refine gives_ensureOpen.bind (Move.Gives.read.bind ?_)
        simp only [haccess, hat', Bool.false_eq_true, if_false]
        refine (gives_onSource hseek).bind ?_
        rcases hhead : (AtomSet.upFrom key items).head? with _ | x
        · exact hrestore.bind .pure
        · obtain ⟨hxk, hexact⟩ := hup x hhead
          simp only [hxk, hexact, if_false, Bool.not_true, Bool.false_eq_true]
          exact hrestore.bind .pure
  | closed h h' => exact (fails_closed h).agree (SnapshotCursor.fails_closed h') (.closed h h')

/-- The buffer over a producer of the items mirrors the cursor over the window that it spans. -/
theorem mirrors_window (hp : p.Yields items ordered seekable Q) :
    (navigation p).Mirrors (Window.navigation items ordered seekable) (Views items Q)
      (fun q => q.seeks = true → ordered = true ∧ seekable = true) where
  next _ _ _ h := agree_next hp h
  prev _ _ _ h := agree_prev h
  hasNext _ _ _ h := agree_hasNext hp h
  hasPrev _ _ _ h := agree_hasPrev h
  current h := current_eq h
  goTo hq _ _ h := by
    obtain ⟨rfl, rfl⟩ := hq rfl
    exact agree_goTo hp h
  beforeFirst _ _ _ h := agree_beforeFirst hp h
  afterLast _ _ _ h := agree_afterLast hp h
  close {b c} _ := by
    refine .closed ?_ rfl
    show (if b.closed then b else _).closed = true
    split
    · assumption
    · rfl

/-- The buffers from which the given handles are to come. -/
def Rests (items : List AtomId) (Q : List AtomId → σ → Prop) (rest : List AtomId) (b : Buffered σ) : Prop :=
  ∃ c, Views items Q b c ∧ Window.Rests items rest c

theorem rests_start (h : Q items s) : Rests items Q items (start s) :=
  ⟨_, views_start h, .mk (List.suffix_refl _) .before⟩

private theorem Rests.to_come (h : Views items Q b c) (hrest : Window.Rests items rest c) :
    ∃ rest', Q rest' b.source := by
  cases h with
  | opened hspans _ _ => exact hspans.to_come
  | closed _ h' =>
    obtain ⟨_, hrest⟩ := hrest
    obtain ⟨_, rfl⟩ := hrest.eq
    simp at h'

/-- The buffer over a producer yields what the producer yields. -/
theorem yields (hp : p.Yields items ordered seekable Q) :
    (navigation p).forward.Yields items ordered seekable (Rests items Q) := by
  refine (mirrors_window hp).yields (Window.yields hp.ascending) (by simp [Request.seeks]) (by simp [Request.seeks])
    (fun ho hk _ _ => ⟨ho, hk⟩) ?_ ?_ ?_
  · intro rest b c h hrest
    obtain ⟨rest', hQ⟩ := Rests.to_come h hrest
    exact Nat.le_trans (hp.capacity hQ) (Nat.le_add_left _ _)
  · intro rest b c h hrest
    obtain ⟨rest', hQ⟩ := Rests.to_come h hrest
    exact hp.isOrdered hQ
  · intro rest b c h hrest
    obtain ⟨rest', hQ⟩ := Rests.to_come h hrest
    exact hp.isRandomAccess hQ

/-- The buffer over a producer that can be sought finds exactly what the producer yields. -/
theorem probes (hp : p.Yields items ordered seekable Q) (ho : ordered = true) (hk : seekable = true) :
    (navigation p).Probes items (Rests items Q) := by
  rintro rest b key ⟨c, hviews, hrest⟩
  have hwindow : (Window.navigation items ordered seekable).Probes items _ := Window.probes (hp.ascending ho)
  obtain ⟨d, rest', landing, hgoTo, hrest', hlanding⟩ := hwindow key hrest
  obtain ⟨b', hgoTo, hviews⟩ := ((mirrors_window hp).goTo (fun _ => ⟨ho, hk⟩) hviews).gives hgoTo
  exact ⟨b', rest', landing, hgoTo, ⟨d, hviews, hrest'⟩, hlanding⟩

end Buffered

end HyperQuery
