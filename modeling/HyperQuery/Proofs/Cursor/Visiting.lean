import HyperQuery.Proofs.Cursor.Failing

/-!
# Walking cursors over any neighbours

What a walking cursor finds when neighbours may not be readable, and there may be no end of them. A walk draws the
handles it takes, with the error in place of a handle whose neighbours cannot be read, which leads to nothing
(`successors`). Drawing from the start on is drawing from a frontier where the origin waits alone
(`draws_start_of_drawn`, `draws_start_of_left_out`), but for the origin itself, which may be left out. So on a finite
graph the cursor finds what the walk visits, and then nothing (`exists_replies_walked`).
-/

namespace HyperQuery

namespace Frontier

variable {order : VisitOrder} {neighbours : AtomId → Metered (List AtomId)} {origin : AtomId} {includeStart : Bool}
  {room k : Nat} {f : Frontier} {x : AtomId} {ids rest : List AtomId} {e : QueryError}

/-- What a handle leads to: its neighbours, or nothing if they cannot be read. -/
def successors (neighbours : AtomId → Metered (List AtomId)) (x : AtomId) : List AtomId :=
  match (neighbours x).answer with
  | .ok ids => ids
  | .error _ => []

/-- What a walk draws in the place of a handle that it takes. -/
def outcome (neighbours : AtomId → Metered (List AtomId)) (x : AtomId) : Except QueryError (Option AtomId) :=
  match (neighbours x).answer with
  | .ok _ => .ok (some x)
  | .error e => .error e

theorem successors_of_ok (h : (neighbours x).answer = .ok ids) : successors neighbours x = ids := by
  rw [successors, h]

theorem outcome_of_ok (h : (neighbours x).answer = .ok ids) : outcome neighbours x = .ok (some x) := by
  rw [outcome, h]

theorem outcome_of_error (h : (neighbours x).answer = .error e) : outcome neighbours x = .error e := by
  rw [outcome, h]

theorem enlist_of_error (h : (neighbours x).answer = .error e) : enlist (successors neighbours x) f = f := by
  rw [successors, h]
  rfl

theorem gives_expand_of_ok (h : (neighbours x).answer = .ok ids) :
    (expand neighbours x).Gives f () (enlist (successors neighbours x) f) := by
  rw [successors_of_ok h]
  exact Move.Gives.bind (.lift h) .update

theorem fails_expand_of_error (h : (neighbours x).answer = .error e) : (expand neighbours x).Fails f e f :=
  Move.Fails.bind (.lift h)

/-- The frontier where the origin waits alone. -/
def begun (origin : AtomId) : Frontier := ⟨[origin], [origin], true⟩

/-! ### What is drawn -/

private theorem gives_pull {y : Option AtomId} {g : Frontier} (hstarted : f.started = true)
    (h : (step order neighbours).Gives f y g) : (pull order neighbours origin includeStart).Gives f y g := by
  refine Move.Gives.read.bind ?_
  rw [if_pos hstarted]
  exact h

private theorem fails_pull {g : Frontier} (hstarted : f.started = true) (h : (step order neighbours).Fails f e g) :
    (pull order neighbours origin includeStart).Fails f e g := by
  refine Move.Fails.read ?_
  rw [if_pos hstarted]
  exact h

/-- Once nothing waits, nothing is drawn. -/
theorem draws_of_idle (hstarted : f.started = true) (hpending : f.pending = []) :
    (producer order neighbours origin includeStart room).draws k f = .replicate k (.ok none) := by
  have hstep : (step order neighbours).Gives f none f := by
    refine Move.Gives.read.bind ?_
    simp only [take?_nil hpending]
    exact .pure
  exact Producer.draws_of_none (gives_pull hstarted hstep)

/-- The handle that comes next is drawn, and what it leads to waits with the others. -/
theorem draws_of_picks (hstarted : f.started = true) (hpick : order.Picks f.pending x rest) :
    (producer order neighbours origin includeStart room).draws (k + 1) f =
      outcome neighbours x :: (producer order neighbours origin includeStart room).draws k
        (enlist (successors neighbours x) { f with pending := rest }) := by
  rcases hx : (neighbours x).answer with e | ids
  · have hstep : (step order neighbours).Fails f e { f with pending := rest } := by
      refine Move.Fails.read ?_
      simp only [take?_picks hpick]
      exact Move.Gives.update.fails_bind (fails_expand_of_error hx).bind
    rw [outcome_of_error hx, enlist_of_error hx]
    exact Producer.draws_of_error (fails_pull hstarted hstep)
  · have hstep : (step order neighbours).Gives f (some x)
        (enlist (successors neighbours x) { f with pending := rest }) := by
      refine Move.Gives.read.bind ?_
      simp only [take?_picks hpick]
      exact Move.Gives.update.bind ((gives_expand_of_ok hx).bind .pure)
    rw [outcome_of_ok hx]
    exact Producer.draws_of_some (gives_pull hstarted hstep)

theorem draws_begun : (producer order neighbours origin includeStart room).draws (k + 1) (begun origin) =
    outcome neighbours origin :: (producer order neighbours origin includeStart room).draws k
      (enlist (successors neighbours origin) ⟨[], [origin], true⟩) :=
  draws_of_picks rfl (VisitOrder.picks_singleton.mpr rfl)

/-- If the origin is included, or cannot be expanded, a walk draws what it draws where its origin waits alone. -/
theorem draws_start_of_drawn (h : includeStart = true ∨ ∃ e, (neighbours origin).answer = .error e) :
    (producer order neighbours origin includeStart room).draws k .start =
      (producer order neighbours origin includeStart room).draws k (begun origin) := by
  cases k with
  | zero => rfl
  | succ k =>
    rw [draws_begun]
    rcases hx : (neighbours origin).answer with e | ids
    · have hstart : (pull order neighbours origin includeStart).Fails .start e ⟨[], [origin], true⟩ :=
        Move.Fails.read (Move.Gives.update.fails_bind (fails_expand_of_error hx).bind)
      rw [outcome_of_error hx, enlist_of_error hx]
      exact Producer.draws_of_error hstart
    · obtain rfl : includeStart = true := h.resolve_right (by simp [hx])
      have hexpand := gives_expand_of_ok (f := ⟨[], [origin], true⟩) hx
      have hstart : (pull order neighbours origin true).Gives .start (some origin)
          (enlist (successors neighbours origin) ⟨[], [origin], true⟩) :=
        Move.Gives.read.bind (Move.Gives.update.bind (hexpand.bind .pure))
      rw [outcome_of_ok hx]
      exact Producer.draws_of_some hstart

/-- If the origin is left out, a walk draws what it draws behind the origin where that waits alone. -/
theorem draws_start_of_left_out (h : (neighbours origin).answer = .ok ids) :
    (producer order neighbours origin false room).draws k .start =
      ((producer order neighbours origin false room).draws (k + 1) (begun origin)).tail := by
  rw [draws_begun, List.tail_cons]
  generalize hf : enlist (successors neighbours origin) ⟨[], [origin], true⟩ = f
  have hstarted : f.started = true := by
    rw [← hf, enlist_eq]
  have hexpand : (expand neighbours origin).Gives ⟨[], [origin], true⟩ () f := hf ▸ gives_expand_of_ok h
  -- the first pull goes on from where the origin was expanded
  refine Producer.draws_congr ?_
  rcases (step order neighbours).gives_or_fails f with ⟨y, g, hstep⟩ | ⟨e, g, hstep⟩
  · have hstart : (pull order neighbours origin false).Gives .start y g :=
      Move.Gives.read.bind (Move.Gives.update.bind (hexpand.bind hstep))
    exact hstart.agree (gives_pull hstarted hstep) rfl
  · have hstart : (pull order neighbours origin false).Fails .start e g :=
      Move.Fails.read (Move.Gives.update.fails_bind (hexpand.fails_bind hstep))
    exact hstart.agree (fails_pull hstarted hstep) rfl

/-! ### What is found on a finite graph -/

/-- A walk draws what it visits, and then nothing. -/
theorem draws_of_visits {seen visited : List AtomId} (hstarted : f.started = true)
    (hseen : ∀ z, z ∈ f.visited ↔ z ∈ seen) (h : Visits order (successors neighbours) seen f.pending visited) :
    (producer order neighbours origin includeStart room).draws (visited.length + k) f =
      visited.map (outcome neighbours) ++ .replicate k (.ok none) := by
  generalize hpending : f.pending = pending at h
  induction h generalizing f with
  | done =>
    rw [List.length_nil, Nat.zero_add, draws_of_idle hstarted hpending]
    rfl
  | @visit seen pending rest visited x hpick h ih =>
    subst hpending
    have hseen' (z : AtomId) :
        z ∈ (enlist (successors neighbours x) { f with pending := rest }).visited ↔
          z ∈ seen ++ successors neighbours x := by
      rw [mem_visited_enlist, hseen, List.mem_append]
    have hrest := ih (f := enlist (successors neighbours x) { f with pending := rest })
      (started_enlist.trans hstarted) hseen' (pending_enlist hseen)
    rw [List.length_cons, Nat.succ_add, draws_of_picks hstarted hpick, hrest]
    rfl

/-- Where all neighbours of what is visited can be read, a walk draws from the start on what it visits, and then
nothing. -/
private theorem draws_walked {taken : List AtomId}
    (h : Visits order (successors neighbours) [origin] [origin] (origin :: taken))
    (hreadable : ∀ x ∈ origin :: taken, ∃ ids, (neighbours x).answer = .ok ids) :
    (producer order neighbours origin includeStart room).draws ((walked origin includeStart taken).length + k) .start =
      (walked origin includeStart taken).map (fun x => .ok (some x)) ++ .replicate k (.ok none) := by
  have houtcomes : (origin :: taken).map (outcome neighbours) = (origin :: taken).map fun x => .ok (some x) := by
    refine List.map_congr_left fun x hx => ?_
    obtain ⟨ids, hids⟩ := hreadable x hx
    exact outcome_of_ok hids
  have hbegun : (producer order neighbours origin includeStart room).draws ((origin :: taken).length + k)
      (begun origin) = (origin :: taken).map (fun x => .ok (some x)) ++ .replicate k (.ok none) := by
    rw [draws_of_visits rfl (fun _ => Iff.rfl) h, houtcomes]
  cases includeStart with
  | true => exact (draws_start_of_drawn (.inl rfl)).trans hbegun
  | false =>
    obtain ⟨ids, hids⟩ := hreadable origin List.mem_cons_self
    rw [List.length_cons, Nat.succ_add] at hbegun
    rw [walked, if_neg (by simp), draws_start_of_left_out hids, hbegun]
    rfl

/-- On a finite graph whose neighbours can be read, a walk comes to an end, and from the start on its cursor finds what
it visits, and then nothing. -/
theorem exists_replies_walked (order : VisitOrder) (includeStart : Bool) (room : Nat) {vertices : List AtomId}
    (horigin : origin ∈ vertices)
    (hvertices : ∀ x ∈ vertices, ∃ ids, (neighbours x).answer = .ok ids ∧ ids ⊆ vertices) :
    ∃ taken, Visits order (successors neighbours) [origin] [origin] (origin :: taken) ∧ ∀ k,
      (Buffered.navigation (producer order neighbours origin includeStart room)).replies
          (.replicate ((walked origin includeStart taken).length + k) .next) (.start .start) =
        Reply.elements ((walked origin includeStart taken).map some ++ .replicate k none) := by
  have hclosed (x : AtomId) (hx : x ∈ vertices) :
      ∀ z ∈ successors neighbours x, z ∈ fresh [] vertices ∧ z ∈ vertices := by
    obtain ⟨ids, hids, hsub⟩ := hvertices x hx
    rw [successors_of_ok hids]
    exact fun z hz => ⟨mem_fresh.mpr ⟨hsub hz, by simp⟩, hsub hz⟩
  obtain ⟨taken, hvisits, -⟩ : ∃ taken, Visits order (successors neighbours) [origin] [origin] (origin :: taken) ∧
      taken.length ≤ (fresh [] vertices).length := exists_taken_of_closed nodup_fresh hclosed horigin
  refine ⟨taken, hvisits, fun k => ?_⟩
  have hmem : ∀ x ∈ origin :: taken, x ∈ vertices := by
    intro x hx
    induction hvisits.explores.mem_iff_reach.mp hx with
    | refl => exact horigin
    | step h hz ih => exact (hclosed _ (ih (hvisits.explores.mem_iff_reach.mpr h)) _ hz).2
  have hreadable (x : AtomId) (hx : x ∈ origin :: taken) : ∃ ids, (neighbours x).answer = .ok ids := by
    obtain ⟨ids, hids, -⟩ := hvertices x (hmem x hx)
    exact ⟨ids, hids⟩
  rw [Buffered.replies_next_start, draws_walked hvisits hreadable]
  simp [Reply.elements, Except.map]

end Frontier

end HyperQuery
