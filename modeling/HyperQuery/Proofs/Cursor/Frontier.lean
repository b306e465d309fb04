import HyperQuery.Cursor.Frontier
import HyperQuery.Proofs.Cursor.Basic
import HyperQuery.Proofs.Exploration

/-!
# Walking cursors yield what the walk visits

A walk visits the handles pending in its order, and lets the successors that were not seen before wait with the others
(`Visits`). That is an exploration, so that a walk visits what can be reached from its origin, each handle once
(`mem_walked`, `nodup_walked`), and the walking cursor yields what the walk visits (`yields`).
-/

namespace HyperQuery

/-- The handle that comes next out of those pending, and the others: the one that has waited longest, or the one that
came last. -/
def VisitOrder.Picks : VisitOrder → List AtomId → AtomId → List AtomId → Prop
  | .breadthFirst, pending, x, rest => pending = x :: rest
  | .depthFirst, pending, x, rest => pending = rest ++ [x]

/-- Given what was seen, a walk visits the handles pending and what follows from them: one after the other, its
successors that were not seen coming in behind those that wait already, until none is pending. -/
inductive Visits (order : VisitOrder) (next : AtomId → List AtomId) : List AtomId → List AtomId → List AtomId → Prop
  | done {seen : List AtomId} : Visits order next seen [] []
  | visit {seen pending rest visited : List AtomId} {x : AtomId} (hpick : order.Picks pending x rest)
    (h : Visits order next (seen ++ next x) (rest ++ fresh seen (next x)) visited) :
    Visits order next seen pending (x :: visited)

variable {order : VisitOrder} {next : AtomId → List AtomId}

theorem VisitOrder.Picks.perm {pending rest : List AtomId} {x : AtomId} (h : order.Picks pending x rest) :
    pending.Perm (x :: rest) := by
  cases order with
  | breadthFirst =>
    cases h
    exact List.Perm.refl _
  | depthFirst =>
    cases h
    exact List.perm_append_singleton _ _

theorem VisitOrder.exists_picks {pending : List AtomId} (h : pending ≠ []) : ∃ x rest, order.Picks pending x rest := by
  cases order with
  | breadthFirst =>
    obtain ⟨x, rest, rfl⟩ := List.exists_cons_of_ne_nil h
    exact ⟨x, rest, rfl⟩
  | depthFirst => exact ⟨pending.getLast h, pending.dropLast, (List.dropLast_concat_getLast h).symm⟩

/-- A handle that is pending alone comes next. -/
theorem VisitOrder.picks_singleton {x : AtomId} {rest : List AtomId} : order.Picks [x] x rest ↔ rest = [] := by
  constructor
  · intro h
    simpa using h.perm.length_eq
  · rintro rfl
    cases order <;> rfl

theorem Visits.explores {seen pending visited : List AtomId} (h : Visits order next seen pending visited) :
    Explores next seen pending visited := by
  induction h with
  | done => exact .done
  | visit hpick _ ih => exact .take hpick.perm (List.Perm.refl _) (fun z => List.mem_append) ih

/-- Visiting a handle leaves less room, whatever it leads to. -/
private theorem explorationRoom_visit {all seen pending rest : List AtomId} {x : AtomId} (hall : all.Nodup)
    (hnext : ∀ z ∈ next x, z ∈ all) (hpick : order.Picks pending x rest) :
    explorationRoom all (seen ++ next x) (rest ++ fresh seen (next x)) < explorationRoom all seen pending :=
  explorationRoom_take hall hnext hpick.perm (List.Perm.refl _) fun _ => List.mem_append

/-- Every walk inside a list of handles comes to an end. -/
theorem exists_visits {all : List AtomId} {P : AtomId → Prop} (hall : all.Nodup)
    (hnext : ∀ x, P x → ∀ z ∈ next x, z ∈ all ∧ P z) {seen pending : List AtomId} (hpending : ∀ z ∈ pending, P z)
    {room : Nat} (hroom : explorationRoom all seen pending ≤ room) :
    ∃ visited, Visits order next seen pending visited ∧ visited.length ≤ room := by
  induction room generalizing seen pending with
  | zero =>
    have hnil : pending = [] := by
      unfold explorationRoom at hroom
      exact List.length_eq_zero_iff.mp (by omega)
    subst hnil
    exact ⟨[], .done, Nat.le_refl 0⟩
  | succ room ih =>
    by_cases hnil : pending = []
    · subst hnil
      exact ⟨[], .done, Nat.zero_le _⟩
    · obtain ⟨x, rest, hpick⟩ : ∃ x rest, order.Picks pending x rest := VisitOrder.exists_picks hnil
      have hx : P x := hpending x (hpick.perm.mem_iff.mpr (by simp))
      have hrest : ∀ z ∈ rest ++ fresh seen (next x), P z := by
        intro z hz
        rcases List.mem_append.mp hz with hz | hz
        · exact hpending z (hpick.perm.mem_iff.mpr (List.mem_cons_of_mem x hz))
        · exact (hnext x hx z (mem_fresh.mp hz).1).2
      have hless := Nat.lt_of_lt_of_le (explorationRoom_visit hall (fun z hz => (hnext x hx z hz).1) hpick) hroom
      obtain ⟨visited, hvisits, hlength⟩ := ih hrest (Nat.le_of_lt_succ hless)
      exact ⟨x :: visited, .visit hpick hvisits, Nat.succ_le_succ hlength⟩

namespace Frontier

variable {neighbours : AtomId → Metered (List AtomId)}

theorem enlist_eq {found : List AtomId} {f : Frontier} :
    enlist found f = { f with
      pending := f.pending ++ fresh f.visited found, visited := (fresh f.visited found).reverse ++ f.visited } := by
  induction found generalizing f with
  | nil => simp [enlist, fresh]
  | cons x found ih =>
    unfold enlist fresh
    split
    · exact ih
    · rw [ih]
      simp

theorem started_enlist {found : List AtomId} {f : Frontier} : (enlist found f).started = f.started := by rw [enlist_eq]

/-- What was not seen comes in behind what waits already. -/
theorem pending_enlist {found seen : List AtomId} {f : Frontier} (hseen : ∀ z, z ∈ f.visited ↔ z ∈ seen) :
    (enlist found f).pending = f.pending ++ fresh seen found := by
  rw [enlist_eq, fresh_congr hseen]

theorem mem_visited_enlist {found : List AtomId} {f : Frontier} {z : AtomId} :
    z ∈ (enlist found f).visited ↔ z ∈ f.visited ∨ z ∈ found := by
  simp only [enlist_eq, List.mem_append, List.mem_reverse, mem_fresh]
  by_cases hz : z ∈ f.visited <;> simp [hz]

theorem take?_nil {f : Frontier} (h : f.pending = []) : f.take? order = none := by
  cases order <;> simp [take?, h]

theorem take?_picks {f : Frontier} {x : AtomId} {rest : List AtomId} (h : order.Picks f.pending x rest) :
    f.take? order = some (x, { f with pending := rest }) := by
  cases order with
  | breadthFirst =>
    have hpending : f.pending = x :: rest := h
    simp [take?, hpending]
  | depthFirst =>
    have hpending : f.pending = rest ++ [x] := h
    simp [take?, hpending]

/-! ### The producer -/

section Producer

variable {origin : AtomId} {includeStart : Bool} {room : Nat} {items : List AtomId}

/-- The frontier has seen what the walk has seen, and the same handles are pending. -/
structure Follows (order : VisitOrder) (next : AtomId → List AtomId) (f : Frontier) (rest : List AtomId) : Prop where
  started : f.started = true
  visits : ∃ seen, (∀ z, z ∈ f.visited ↔ z ∈ seen) ∧ Visits order next seen f.pending rest

/-- The walk before it begins, and on its way. -/
inductive Rests (order : VisitOrder) (next : AtomId → List AtomId) (items : List AtomId) : List AtomId → Frontier → Prop
  | start : Rests order next items items Frontier.start
  | going {f : Frontier} {rest : List AtomId} (h : Follows order next f rest) (hrest : rest <:+ items) :
    Rests order next items rest f

/-- What a walk yields, given what it visits after its origin. -/
def walked (origin : AtomId) (includeStart : Bool) (taken : List AtomId) : List AtomId :=
  if includeStart then origin :: taken else taken

/-- Expanding a handle that was taken follows the walk. -/
private theorem follows_enlist {f : Frontier} {x : AtomId} {seen rest visited : List AtomId} (hstarted : f.started = true)
    (hseen : ∀ z, z ∈ f.visited ↔ z ∈ seen) (hpending : f.pending = rest)
    (h : Visits order next (seen ++ next x) (rest ++ fresh seen (next x)) visited) :
    Follows order next (enlist (next x) f) visited := by
  have hpending' : (enlist (next x) f).pending = rest ++ fresh seen (next x) := by rw [pending_enlist hseen, hpending]
  refine ⟨started_enlist.trans hstarted, seen ++ next x, fun z => ?_, hpending' ▸ h⟩
  rw [mem_visited_enlist, hseen, List.mem_append]

private theorem gives_expand (hneighbours : ∀ x, (neighbours x).answer = .ok (next x)) {f : Frontier} {x : AtomId} :
    (expand neighbours x).Gives f () (enlist (next x) f) := Move.Gives.bind (.lift (hneighbours x)) .update

private theorem draws_step (hneighbours : ∀ x, (neighbours x).answer = .ok (next x)) {f : Frontier}
    {rest : List AtomId} (h : Follows order next f rest) (hrest : rest <:+ items) :
    Draws (step order neighbours) (Rests order next items) f rest := by
  obtain ⟨hstarted, seen, hseen, hvisits⟩ := h
  generalize hpending : f.pending = pending at hvisits
  cases hvisits with
  | done =>
    have hfollows : Follows order next f [] := ⟨hstarted, seen, hseen, by rw [hpending]; exact .done⟩
    refine draws_nil (Move.Gives.read.bind ?_) (.going hfollows hrest)
    simp only [take?_nil hpending]
    exact .pure
  | @visit _ _ waiting rest x hpick hvisits =>
    subst hpending
    have hfollows : Follows order next (enlist (next x) { f with pending := waiting }) rest :=
      follows_enlist hstarted hseen rfl hvisits
    refine draws_cons (Move.Gives.read.bind ?_) (.going hfollows ((List.suffix_cons x rest).trans hrest))
    simp only [take?_picks hpick]
    exact Move.Gives.update.bind ((gives_expand hneighbours).bind .pure)

/-- A walk that stays inside a list of handles comes to an end. -/
theorem exists_taken_of_closed {all : List AtomId} {P : AtomId → Prop} (hall : all.Nodup)
    (hnext : ∀ x, P x → ∀ z ∈ next x, z ∈ all ∧ P z) (horigin : P origin) :
    ∃ taken, Visits order next [origin] [origin] (origin :: taken) ∧ taken.length ≤ all.length := by
  have hpick : order.Picks [origin] origin [] := VisitOrder.picks_singleton.mpr rfl
  have hnext' : ∀ z ∈ next origin, z ∈ all := fun z hz => (hnext origin horigin z hz).1
  have hpending : ∀ z ∈ [] ++ fresh [origin] (next origin), P z :=
    fun z hz => (hnext origin horigin z (mem_fresh.mp hz).1).2
  have hle : explorationRoom all [origin] [origin] ≤ all.length + 1 :=
    Nat.add_le_add_right (List.length_filter_le _ _) 1
  have hless := Nat.lt_of_lt_of_le (explorationRoom_visit hall hnext' hpick) hle
  obtain ⟨taken, hvisits, hlength⟩ := exists_visits hall hnext hpending (Nat.le_of_lt_succ hless)
  exact ⟨taken, .visit hpick hvisits, hlength⟩

/-- Everything there is to a walk inside a list of handles: what it visits after its origin. -/
theorem exists_taken {all : List AtomId} (hall : all.Nodup) (hnext : ∀ x, ∀ z ∈ next x, z ∈ all) :
    ∃ taken, Visits order next [origin] [origin] (origin :: taken) ∧ taken.length ≤ all.length :=
  exists_taken_of_closed hall (fun x _ z hz => ⟨hnext x z hz, trivial⟩) trivial

theorem length_walked_le {taken : List AtomId} : (walked origin includeStart taken).length ≤ taken.length + 1 := by
  unfold walked
  split
  · exact Nat.le_refl _
  · exact Nat.le_succ _

/-- A walking cursor yields what the walk visits. -/
theorem yields (hneighbours : ∀ x, (neighbours x).answer = .ok (next x)) {taken : List AtomId}
    (hvisits : Visits order next [origin] [origin] (origin :: taken)) (hlength : taken.length ≤ room) :
    (producer order neighbours origin includeStart room).Yields (walked origin includeStart taken) false false
      (Rests order next (walked origin includeStart taken)) where
  pull h := by
    cases h with
    | start =>
      have hfollows : Follows order next (enlist (next origin) ⟨[], [origin], true⟩) taken := by
        cases hvisits with
        | visit hpick hvisits =>
          have hrest := VisitOrder.picks_singleton.mp hpick
          subst hrest
          exact follows_enlist rfl (fun _ => Iff.rfl) rfl hvisits
      have hexpand := gives_expand hneighbours (f := ⟨[], [origin], true⟩) (x := origin)
      cases includeStart with
      | true =>
        refine draws_cons ?_ (.going hfollows (List.suffix_cons origin taken))
        exact Move.Gives.read.bind (Move.Gives.update.bind (hexpand.bind .pure))
      | false =>
        have hself : taken <:+ taken := List.suffix_refl taken
        obtain ⟨f, rest, hstep, hf⟩ := draws_step hneighbours hfollows hself
        exact ⟨f, rest, Move.Gives.read.bind (Move.Gives.update.bind (hexpand.bind hstep)), hf⟩
    | going h hrest =>
      obtain ⟨f, rest, hstep, hf⟩ := draws_step hneighbours h hrest
      refine ⟨f, rest, Move.Gives.read.bind ?_, hf⟩
      simp only [h.started, if_true]
      exact hstep
  rewind _ := ⟨_, .update, .start⟩
  seek ho := by simp at ho
  suffix h := by
    cases h with
    | start => exact List.suffix_refl _
    | going _ hrest => exact hrest
  capacity {rest f} _ := by
    have hitems : (walked origin includeStart taken).length ≤ taken.length + 1 := length_walked_le
    show _ ≤ f.pending.length + room + 2
    omega
  isOrdered _ := rfl
  isRandomAccess _ := rfl
  ascending ho := by simp at ho

theorem nodup_walked {taken : List AtomId} (hvisits : Visits order next [origin] [origin] (origin :: taken)) :
    (walked origin includeStart taken).Nodup := by
  have hnodup := hvisits.explores.nodup
  unfold walked
  split
  · exact hnodup
  · exact (List.nodup_cons.mp hnodup).2

theorem mem_walked {taken : List AtomId} (hvisits : Visits order next [origin] [origin] (origin :: taken))
    {z : AtomId} :
    z ∈ walked origin includeStart taken ↔ Reach next origin z ∧ (includeStart = false → z ≠ origin) := by
  rw [← hvisits.explores.mem_iff_reach]
  cases includeStart with
  | true => simp [walked]
  | false =>
    have hnot := (List.nodup_cons.mp hvisits.explores.nodup).1
    rw [walked, if_neg (by simp), List.mem_cons]
    constructor
    · intro hz
      exact ⟨.inr hz, fun _ h => hnot (h ▸ hz)⟩
    · rintro ⟨hz, hne⟩
      exact hz.resolve_left (hne rfl)

end Producer

end Frontier

end HyperQuery
