import HyperQuery.Proofs.Cursor.Visiting
import Mathlib.Data.List.Forall2
import Mathlib.Data.Nat.Find

/-!
# Breadth first walks go outward

The handles that a breadth first walk finds come in the order of their hop distance from its origin
(`Frontier.breadthFirst_outward`): the least number of steps of a path along neighbours (`Distance`). At any time those
that wait are handles of two successive distances, the closer ones in front, everything up to the smaller distance has
been seen, and so has what the handles that were taken lead to (`Layered`). This needs neither an end of the graph nor
neighbours that can be read; a handle whose neighbours cannot be read leads to nothing.
-/

namespace HyperQuery

/-! ### Hop distance -/

/-- There is a path of so many steps along successors. -/
inductive Hops (next : AtomId → List AtomId) (x : AtomId) : Nat → AtomId → Prop
  | refl : Hops next x 0 x
  | step {n : Nat} {y z : AtomId} (h : Hops next x n y) (hz : z ∈ next y) : Hops next x (n + 1) z

/-- There is a path of at most so many steps. -/
def Within (next : AtomId → List AtomId) (x : AtomId) (n : Nat) (z : AtomId) : Prop := ∃ m, m ≤ n ∧ Hops next x m z

/-- The least number of steps of a path. -/
def Distance (next : AtomId → List AtomId) (x : AtomId) (n : Nat) (z : AtomId) : Prop :=
  Hops next x n z ∧ ∀ m, Hops next x m z → n ≤ m

section Distance

variable {next : AtomId → List AtomId} {x y z : AtomId} {n : Nat}

theorem Distance.within (h : Distance next x n z) : Within next x n z := ⟨n, Nat.le_refl n, h.1⟩

theorem Within.succ (h : Within next x n z) : Within next x (n + 1) z := by
  obtain ⟨m, hm, h⟩ := h
  exact ⟨m, Nat.le_succ_of_le hm, h⟩

theorem Within.step (h : Within next x n y) (hz : z ∈ next y) : Within next x (n + 1) z := by
  obtain ⟨m, hm, h⟩ := h
  exact ⟨m + 1, Nat.succ_le_succ hm, h.step hz⟩

theorem within_zero : Within next x 0 z ↔ z = x := by
  constructor
  · rintro ⟨m, hm, h⟩
    obtain rfl := Nat.le_zero.mp hm
    cases h
    rfl
  · rintro rfl
    exact ⟨0, Nat.le_refl 0, .refl⟩

theorem within_succ : Within next x (n + 1) z ↔ z = x ∨ ∃ y, Within next x n y ∧ z ∈ next y := by
  constructor
  · rintro ⟨m, hm, h⟩
    cases h with
    | refl => exact .inl rfl
    | @step m y _ h hz => exact .inr ⟨y, ⟨m, Nat.le_of_succ_le_succ hm, h⟩, hz⟩
  · rintro (rfl | ⟨y, h, hz⟩)
    · exact ⟨0, Nat.zero_le _, .refl⟩
    · exact h.step hz

/-- What is within one more step and not closer is that far away. -/
theorem Within.distance_succ (h : Within next x (n + 1) z) (hnot : ¬ Within next x n z) :
    Distance next x (n + 1) z := by
  have hle (m : Nat) (hm : Hops next x m z) : n + 1 ≤ m := Nat.lt_of_not_le fun hle => hnot ⟨m, hle, hm⟩
  obtain ⟨m, hm, h⟩ := h
  obtain rfl := Nat.le_antisymm hm (hle m h)
  exact ⟨h, hle⟩

/-- What can be reached is what has a distance. -/
theorem exists_distance_iff_reach : (∃ n, Distance next x n z) ↔ Reach next x z := by
  constructor
  · rintro ⟨n, h, -⟩
    induction h with
    | refl => exact .refl
    | step _ hz ih => exact ih.step hz
  · intro h
    have hhops : ∃ n, Hops next x n z := by
      induction h with
      | refl => exact ⟨0, .refl⟩
      | step _ hz ih =>
        obtain ⟨n, h⟩ := ih
        exact ⟨n + 1, h.step hz⟩
    classical exact ⟨Nat.find hhops, Nat.find_spec hhops, fun _ => Nat.find_min' hhops⟩

end Distance

/-! ### The layers of a walk -/

namespace Frontier

/-- A frontier on its way through the handles at the distance `d` from the origin: those of `near` are still to be
expanded, and those of `far` were found one step further away. -/
structure Layered (next : AtomId → List AtomId) (origin : AtomId) (f : Frontier) (d : Nat) (near far : List AtomId) :
    Prop where
  started : f.started = true
  pending : f.pending = near ++ far
  distance_near : ∀ z ∈ near, Distance next origin d z
  distance_far : ∀ z ∈ far, Distance next origin (d + 1) z
  mem_visited : ∀ z, z ∈ f.visited ↔ Within next origin d z ∨ z ∈ far
  expanded : ∀ y, Within next origin d y → y ∉ near → ∀ z ∈ next y, z ∈ f.visited

namespace Layered

variable {next : AtomId → List AtomId} {origin x : AtomId} {f : Frontier} {d : Nat} {near far : List AtomId}

theorem begun : Layered next origin (begun origin) 0 [origin] [] where
  started := rfl
  pending := rfl
  distance_near z hz := by
    obtain rfl := List.mem_singleton.mp hz
    exact ⟨.refl, fun _ _ => Nat.zero_le _⟩
  distance_far z hz := absurd hz List.not_mem_nil
  mem_visited z := by simp [Frontier.begun, within_zero]
  expanded y hy hnot := absurd (List.mem_singleton.mpr (within_zero.mp hy)) hnot

/-- Where nothing is left at one distance, all that is one step further away has been found. -/
theorem advance (h : Layered next origin f d [] far) : Layered next origin f (d + 1) far [] := by
  have hvisited (z : AtomId) : z ∈ f.visited ↔ Within next origin (d + 1) z := by
    constructor
    · intro hz
      rcases (h.mem_visited z).mp hz with hz | hz
      · exact hz.succ
      · exact (h.distance_far z hz).within
    · intro hz
      rcases within_succ.mp hz with rfl | ⟨y, hy, hz⟩
      · exact (h.mem_visited z).mpr (.inl ⟨0, Nat.zero_le d, .refl⟩)
      · exact h.expanded y hy List.not_mem_nil z hz
  refine ⟨h.started, ?_, h.distance_far, by simp, fun z => ?_, fun y hy hnot => ?_⟩
  · rw [h.pending, List.nil_append, List.append_nil]
  · rw [hvisited]
    simp
  · -- what was found and is not waiting is closer, so that it has been expanded
    have hy : Within next origin d y := ((h.mem_visited y).mp ((hvisited y).mpr hy)).resolve_right hnot
    exact h.expanded y hy List.not_mem_nil

/-- Expanding the first of the handles that wait finds handles that are one step further away. -/
theorem expand (h : Layered next origin f d (x :: near) far) :
    Layered next origin (enlist (next x) { f with pending := near ++ far }) d near
      (far ++ fresh f.visited (next x)) := by
  have hx : Within next origin d x := (h.distance_near x List.mem_cons_self).within
  refine ⟨started_enlist.trans h.started, ?_, fun z hz => ?_, fun z hz => ?_, fun z => ?_, fun y hy hnot z hz => ?_⟩
  · rw [pending_enlist fun _ => Iff.rfl, List.append_assoc]
  · exact h.distance_near z (List.mem_cons_of_mem x hz)
  · rcases List.mem_append.mp hz with hz | hz
    · exact h.distance_far z hz
    · obtain ⟨hz, hnew⟩ := mem_fresh.mp hz
      exact (hx.step hz).distance_succ fun hclose => hnew ((h.mem_visited z).mpr (.inl hclose))
  · rw [mem_visited_enlist, List.mem_append, mem_fresh, ← or_assoc, ← h.mem_visited]
    by_cases hz : z ∈ f.visited <;> simp [hz]
  · rw [mem_visited_enlist]
    rcases eq_or_ne y x with rfl | hne
    · exact .inr hz
    · exact .inl (h.expanded y hy (by simp [hne, hnot]) z hz)

/-- If anything waits, its front is at some distance that has been reached. -/
theorem exists_front (h : Layered next origin f d near far) (hpending : f.pending ≠ []) :
    ∃ d' x near' far', d ≤ d' ∧ Layered next origin f d' (x :: near') far' := by
  cases near with
  | cons x near => exact ⟨d, x, near, far, Nat.le_refl d, h⟩
  | nil =>
    cases far with
    | nil => exact absurd h.pending hpending
    | cons x far => exact ⟨d + 1, x, far, [], Nat.le_succ d, h.advance⟩

end Layered

/-! ### What is found on the way -/

/-- The handles that are drawn. -/
def drawn (draws : List (Except QueryError (Option AtomId))) : List AtomId :=
  draws.filterMap fun
    | .ok x => x
    | .error _ => none

variable {neighbours : AtomId → Metered (List AtomId)} {origin : AtomId} {includeStart : Bool}
  {room k d : Nat} {f : Frontier} {near far : List AtomId}

/-- What is drawn from a frontier on comes in the order of distance, and no closer than what waits. -/
theorem Layered.drawn_outward (h : Layered (successors neighbours) origin f d near far) (includeStart : Bool)
    (room k : Nat) :
    ∃ distances : List Nat, (d :: distances).Pairwise (· ≤ ·) ∧
      List.Forall₂ (Distance (successors neighbours) origin) distances
        (drawn ((producer .breadthFirst neighbours origin includeStart room).draws k f)) := by
  induction k generalizing f d near far with
  | zero => exact ⟨[], List.pairwise_singleton _ _, .nil⟩
  | succ k ih =>
    by_cases hpending : f.pending = []
    · rw [draws_of_idle h.started hpending]
      exact ⟨[], List.pairwise_singleton _ _, by simp [drawn]⟩
    · obtain ⟨d', x, near, far, hd, h⟩ := h.exists_front hpending
      have hpick : VisitOrder.breadthFirst.Picks f.pending x (near ++ far) := h.pending
      obtain ⟨distances, hsorted, hdistances⟩ := ih h.expand
      have hsorted' : (d :: distances).Pairwise (· ≤ ·) := by
        refine List.pairwise_cons.mpr ⟨fun n hn => ?_, hsorted.of_cons⟩
        exact Nat.le_trans hd (List.rel_of_pairwise_cons hsorted hn)
      rw [draws_of_picks h.started hpick]
      rcases hx : (neighbours x).answer with e | ids
      · rw [outcome_of_error hx]
        exact ⟨distances, hsorted', hdistances⟩
      · rw [outcome_of_ok hx]
        refine ⟨d' :: distances, ?_, .cons (h.distance_near x List.mem_cons_self) hdistances⟩
        exact List.pairwise_cons.mpr ⟨List.forall_mem_cons.mpr ⟨hd, (List.pairwise_cons.mp hsorted').1⟩, hsorted⟩

end Frontier

/-- The handles among the replies. -/
def Reply.found (replies : List (Except QueryError Reply)) : List AtomId :=
  replies.filterMap fun
    | .ok (.element x) => x
    | _ => none

namespace Frontier

private theorem found_element (draws : List (Except QueryError (Option AtomId))) :
    Reply.found (draws.map (Except.map Reply.element)) = drawn draws := by
  unfold Reply.found drawn
  rw [List.filterMap_map]
  refine List.filterMap_congr fun r _ => ?_
  cases r <;> rfl

private theorem drawn_start_outward :
    ∃ distances : List Nat, distances.Pairwise (· ≤ ·) ∧
      List.Forall₂ (Distance (successors neighbours) origin) distances
        (drawn ((producer .breadthFirst neighbours origin includeStart room).draws k .start)) := by
  have hbegun : Layered (successors neighbours) origin (begun origin) 0 [origin] [] := .begun
  by_cases hdrawn : includeStart = true ∨ ∃ e, (neighbours origin).answer = .error e
  · obtain ⟨distances, hsorted, hdistances⟩ := hbegun.drawn_outward includeStart room k
    rw [draws_start_of_drawn hdrawn]
    exact ⟨distances, hsorted.of_cons, hdistances⟩
  · -- the origin is not drawn, but comes first where it waits alone
    obtain ⟨hincluded, hreadable⟩ := not_or.mp hdrawn
    obtain rfl : includeStart = false := by simpa using hincluded
    rcases hx : (neighbours origin).answer with e | ids
    · exact absurd ⟨e, hx⟩ hreadable
    · obtain ⟨distances, hsorted, hdistances⟩ := hbegun.drawn_outward false room (k + 1)
      rw [draws_start_of_left_out hx]
      rw [draws_begun, outcome_of_ok hx] at hdistances ⊢
      rcases hdistances with _ | ⟨-, hdistances⟩
      exact ⟨_, hsorted.of_cons.of_cons, hdistances⟩

/-- From any start on and over any neighbours, the steps forward of a breadth first walk find handles in the order of
their hop distance from its origin, along the neighbours that can be read. If the neighbours can be read on a finite
graph, the steps come to an end and have found everything that has a distance, each handle once, less the origin if that
is left out. -/
theorem breadthFirst_outward (neighbours : AtomId → Metered (List AtomId)) (origin : AtomId) (includeStart : Bool)
    (room : Nat) :
    let cursor := Buffered.navigation (producer .breadthFirst neighbours origin includeStart room)
    (∀ k, ∃ distances : List Nat, distances.Pairwise (· ≤ ·) ∧
      List.Forall₂ (Distance (successors neighbours) origin) distances
        (Reply.found (cursor.replies (.replicate k .next) (.start .start)))) ∧
    ∀ vertices, origin ∈ vertices →
      (∀ x ∈ vertices, ∃ ids, (neighbours x).answer = .ok ids ∧ ids ⊆ vertices) →
      ∃ visited : List AtomId,
        (∀ k, cursor.replies (.replicate (visited.length + k) .next) (.start .start) =
          Reply.elements (visited.map some ++ .replicate k none)) ∧
        visited.Nodup ∧
        ∀ z, z ∈ visited ↔
          (∃ n, Distance (successors neighbours) origin n z) ∧ (includeStart = false → z ≠ origin) := by
  intro cursor
  refine ⟨fun k => ?_, fun vertices horigin hvertices => ?_⟩
  · rw [Buffered.replies_next_start, found_element]
    exact drawn_start_outward
  · obtain ⟨taken, hvisits, hreplies⟩ := exists_replies_walked .breadthFirst includeStart room horigin hvertices
    refine ⟨walked origin includeStart taken, hreplies, nodup_walked hvisits, fun z => ?_⟩
    rw [exists_distance_iff_reach]
    exact mem_walked hvisits

/-- A circle with a way back to its start and two ways to one handle, beside handles whose neighbours cannot be read. -/
theorem breadthFirst_outward_circle :
    let neighbours : AtomId → Metered (List AtomId) := fun
      | 1 => pure [3, 2]
      | 2 => pure [1, 4]
      | 3 => pure [4, 3]
      | 4 => pure [5, 2]
      | 5 => pure [1]
      | x => Metered.fail (.missingAtom x)
    let cursor := Buffered.navigation (producer .breadthFirst neighbours 1 false 0)
    cursor.replies (.replicate 5 .next) (.start .start) = Reply.elements [some 3, some 2, some 4, some 5, none] ∧
      (∃ distances : List Nat, distances.Pairwise (· ≤ ·) ∧
        List.Forall₂ (Distance (successors neighbours) 1) distances [3, 2, 4, 5]) ∧
      ∃ visited : List AtomId, visited.Nodup ∧
        ∀ z, z ∈ visited ↔ (∃ n, Distance (successors neighbours) 1 n z) ∧ (false = false → z ≠ 1) := by
  intro neighbours cursor
  have hvertices : ∀ x ∈ [1, 2, 3, 4, 5], ∃ ids, (neighbours x).answer = .ok ids ∧ ids ⊆ [1, 2, 3, 4, 5] := by
    simp only [List.forall_mem_cons, List.not_mem_nil, false_implies, implies_true, and_true]
    exact ⟨⟨_, rfl, by decide⟩, ⟨_, rfl, by decide⟩, ⟨_, rfl, by decide⟩, ⟨_, rfl, by decide⟩, ⟨_, rfl, by decide⟩⟩
  have hreplies : cursor.replies (.replicate 5 .next) (.start .start) =
      Reply.elements [some 3, some 2, some 4, some 5, none] := by decide +kernel
  obtain ⟨houtward, hfinite⟩ := breadthFirst_outward neighbours 1 false 0
  have hfound := houtward 5
  rw [hreplies] at hfound
  obtain ⟨visited, -, hnodup, hmem⟩ := hfinite [1, 2, 3, 4, 5] (by decide) hvertices
  exact ⟨hreplies, hfound, visited, hnodup, hmem⟩

end Frontier

end HyperQuery
