import HyperQuery.Proofs.Metered
import HyperQuery.Store.Scan

/-!
# Exploring a graph from a handle

An exploration takes handles out of those pending, in any order, and adds the successors that were not seen before
(`Explores`). Whatever the order, the handles taken from `x` on are those that can be reached from `x`, each once
(`Explores.mem_iff_reach`, `Explores.nodup`). The closure is such an exploration, if its fuel covers the handles there
are (`closure_explores`).
-/

namespace HyperQuery

/-- There is a path along successors. -/
inductive Reach (next : AtomId → List AtomId) (x : AtomId) : AtomId → Prop
  | refl : Reach next x x
  | step {y z : AtomId} (h : Reach next x y) (hz : z ∈ next y) : Reach next x z

theorem Reach.head {next : AtomId → List AtomId} {x y z : AtomId} (h : Reach next y z) (hy : y ∈ next x) :
    Reach next x z := by
  induction h with
  | refl => exact .step .refl hy
  | step _ hz ih => exact .step ih hz

/-! ### New handles -/

/-- The handles that were not seen before, each once. -/
def fresh : List AtomId → List AtomId → List AtomId
  | _, [] => []
  | seen, x :: found => if seen.contains x then fresh seen found else x :: fresh (x :: seen) found

theorem mem_fresh {z : AtomId} {seen found : List AtomId} : z ∈ fresh seen found ↔ z ∈ found ∧ z ∉ seen := by
  induction found generalizing seen with
  | nil => simp [fresh]
  | cons x found ih =>
    unfold fresh
    by_cases hx : x ∈ seen
    · rw [if_pos (by simpa using hx), ih, List.mem_cons]
      constructor
      · rintro ⟨hz, hseen⟩
        exact ⟨.inr hz, hseen⟩
      · rintro ⟨rfl | hz, hseen⟩
        · exact absurd hx hseen
        · exact ⟨hz, hseen⟩
    · rw [if_neg (by simpa using hx), List.mem_cons, ih, List.mem_cons, List.mem_cons, not_or]
      constructor
      · rintro (rfl | ⟨hz, -, hseen⟩)
        · exact ⟨.inl rfl, hx⟩
        · exact ⟨.inr hz, hseen⟩
      · rintro ⟨hz, hseen⟩
        by_cases hzx : z = x
        · exact .inl hzx
        · exact .inr ⟨hz.resolve_left hzx, hzx, hseen⟩

theorem nodup_fresh {seen found : List AtomId} : (fresh seen found).Nodup := by
  induction found generalizing seen with
  | nil => exact List.nodup_nil
  | cons x found ih =>
    unfold fresh
    split
    · exact ih
    · refine List.nodup_cons.mpr ⟨fun hx => ?_, ih⟩
      exact (mem_fresh.mp hx).2 (by simp)

theorem fresh_cons_of_mem {x : AtomId} {seen found : List AtomId} (h : x ∈ seen) :
    fresh seen (x :: found) = fresh seen found := by
  rw [fresh, if_pos (by simpa using h)]

theorem fresh_cons_of_not_mem {x : AtomId} {seen found : List AtomId} (h : x ∉ seen) :
    fresh seen (x :: found) = x :: fresh (x :: seen) found := by
  rw [fresh, if_neg (by simpa using h)]

theorem fresh_congr {seen seen' found : List AtomId} (h : ∀ z, z ∈ seen ↔ z ∈ seen') :
    fresh seen found = fresh seen' found := by
  induction found generalizing seen seen' with
  | nil => rfl
  | cons x found ih =>
    by_cases hx : x ∈ seen
    · rw [fresh_cons_of_mem hx, fresh_cons_of_mem ((h x).mp hx), ih h]
    · have hcons : ∀ z, z ∈ x :: seen ↔ z ∈ x :: seen' := fun z => by simp only [List.mem_cons, h]
      rw [fresh_cons_of_not_mem hx, fresh_cons_of_not_mem fun hx' => hx ((h x).mpr hx'), ih hcons]

theorem discover_eq {found seen pending : List AtomId} :
    discover found (seen, pending) = ((fresh seen found).reverse ++ seen, (fresh seen found).reverse ++ pending) := by
  induction found generalizing seen pending with
  | nil => rfl
  | cons x found ih =>
    unfold discover fresh
    split
    · exact ih
    · rw [ih]
      simp

/-! ### Explorations -/

/-- Taking the pending handles one after the other in some order, and adding the successors that were not seen, takes
the given handles until none is pending. -/
inductive Explores (next : AtomId → List AtomId) : List AtomId → List AtomId → List AtomId → Prop
  | done {seen : List AtomId} : Explores next seen [] []
  | take {seen pending seen' pending' rest taken : List AtomId} {x : AtomId} (hpending : pending.Perm (x :: rest))
    (hpending' : pending'.Perm (rest ++ fresh seen (next x))) (hseen : ∀ z, z ∈ seen' ↔ z ∈ seen ∨ z ∈ next x)
    (h : Explores next seen' pending' taken) : Explores next seen pending (x :: taken)

namespace Explores

variable {next : AtomId → List AtomId} {seen pending taken : List AtomId}

theorem mem_of_mem_pending (h : Explores next seen pending taken) {z : AtomId} (hz : z ∈ pending) : z ∈ taken := by
  induction h with
  | done => simp at hz
  | take hpending hpending' _ _ ih =>
    rcases List.mem_cons.mp (hpending.mem_iff.mp hz) with rfl | hz
    · exact List.mem_cons_self
    · exact List.mem_cons_of_mem _ (ih (hpending'.mem_iff.mpr (List.mem_append_left _ hz)))

theorem reach_of_mem (h : Explores next seen pending taken) {z : AtomId} (hz : z ∈ taken) :
    ∃ x ∈ pending, Reach next x z := by
  induction h with
  | done => simp at hz
  | @take _ _ _ _ rest _ x hpending hpending' _ _ ih =>
    have hx : x ∈ x :: rest := by simp
    rcases List.mem_cons.mp hz with rfl | hz
    · exact ⟨z, hpending.mem_iff.mpr hx, .refl⟩
    · obtain ⟨y, hy, hreach⟩ := ih hz
      rcases List.mem_append.mp (hpending'.mem_iff.mp hy) with hy | hy
      · exact ⟨y, hpending.mem_iff.mpr (List.mem_cons_of_mem x hy), hreach⟩
      · -- a new handle is a successor of the one that was taken
        have hy : y ∈ next x := (mem_fresh.mp hy).1
        exact ⟨x, hpending.mem_iff.mpr hx, hreach.head hy⟩

/-- What was seen and what is taken is closed under successors, if what was seen and is not pending was. -/
theorem closed (h : Explores next seen pending taken) (hpending : ∀ z ∈ pending, z ∈ seen)
    (hseen : ∀ z ∈ seen, z ∉ pending → ∀ y ∈ next z, y ∈ seen) {z y : AtomId} (hz : z ∈ seen ∨ z ∈ taken)
    (hy : y ∈ next z) : y ∈ seen ∨ y ∈ taken := by
  induction h with
  | done => exact .inl (hseen z (hz.resolve_right (by simp)) (by simp) y hy)
  | @take seen pending seen' pending' rest taken x hperm hperm' hseen' hrest ih =>
    have hx : x ∈ seen := hpending x (hperm.mem_iff.mpr (by simp))
    have hpending' : ∀ z ∈ pending', z ∈ seen' := by
      intro z hz
      rcases List.mem_append.mp (hperm'.mem_iff.mp hz) with hz | hz
      · exact (hseen' z).mpr (.inl (hpending z (hperm.mem_iff.mpr (List.mem_cons_of_mem x hz))))
      · exact (hseen' z).mpr (.inr (mem_fresh.mp hz).1)
    have hclosed : ∀ z ∈ seen', z ∉ pending' → ∀ y ∈ next z, y ∈ seen' := by
      intro z hz hnot y hy
      by_cases hzseen : z ∈ seen
      · by_cases hzp : z ∈ pending
        · -- a handle that is no longer pending is the one that was taken, whose successors are seen now
          rcases List.mem_cons.mp (hperm.mem_iff.mp hzp) with rfl | hzrest
          · exact (hseen' y).mpr (.inr hy)
          · exact absurd (hperm'.mem_iff.mpr (List.mem_append_left _ hzrest)) hnot
        · exact (hseen' y).mpr (.inl (hseen z hzseen hzp y hy))
      · have hznext : z ∈ next x := ((hseen' z).mp hz).resolve_left hzseen
        exact absurd (hperm'.mem_iff.mpr (List.mem_append_right _ (mem_fresh.mpr ⟨hznext, hzseen⟩))) hnot
    have hz' : z ∈ seen' ∨ z ∈ taken := by
      rcases hz with hz | hz
      · exact .inl ((hseen' z).mpr (.inl hz))
      · rcases List.mem_cons.mp hz with rfl | hz
        · exact .inl ((hseen' z).mpr (.inl hx))
        · exact .inr hz
    rcases ih hpending' hclosed hz' with hy' | hy'
    · by_cases hyseen : y ∈ seen
      · exact .inl hyseen
      · have hynext : y ∈ next x := ((hseen' y).mp hy').resolve_left hyseen
        have hyp : y ∈ pending' := hperm'.mem_iff.mpr (List.mem_append_right _ (mem_fresh.mpr ⟨hynext, hyseen⟩))
        exact .inr (List.mem_cons_of_mem x (hrest.mem_of_mem_pending hyp))
    · exact .inr (List.mem_cons_of_mem x hy')

theorem nodup_and_new (h : Explores next seen pending taken) (hnodup : pending.Nodup)
    (hpending : ∀ z ∈ pending, z ∈ seen) : taken.Nodup ∧ ∀ z ∈ taken, z ∈ pending ∨ z ∉ seen := by
  induction h with
  | done => exact ⟨List.nodup_nil, by simp⟩
  | @take seen pending seen' pending' rest taken x hperm hperm' hseen' hrest ih =>
    have hcons : (x :: rest).Nodup := hperm.nodup_iff.mp hnodup
    have hmem : ∀ z, z = x ∨ z ∈ rest → z ∈ seen := fun z hz => hpending z (hperm.mem_iff.mpr (List.mem_cons.mpr hz))
    have hnodup' : pending'.Nodup := by
      refine hperm'.nodup_iff.mpr (List.nodup_append.mpr ⟨(List.nodup_cons.mp hcons).2, nodup_fresh, ?_⟩)
      rintro y hy z hz rfl
      exact (mem_fresh.mp hz).2 (hmem y (.inr hy))
    have hpending' : ∀ z ∈ pending', z ∈ seen' := by
      intro z hz
      rcases List.mem_append.mp (hperm'.mem_iff.mp hz) with hz | hz
      · exact (hseen' z).mpr (.inl (hmem z (.inr hz)))
      · exact (hseen' z).mpr (.inr (mem_fresh.mp hz).1)
    obtain ⟨htaken, hnew⟩ := ih hnodup' hpending'
    have hnew' : ∀ z ∈ taken, z ∈ rest ∨ z ∉ seen := by
      intro z hz
      rcases hnew z hz with hz | hz
      · exact (List.mem_append.mp (hperm'.mem_iff.mp hz)).imp_right fun hz => (mem_fresh.mp hz).2
      · exact .inr fun hzseen => hz ((hseen' z).mpr (.inl hzseen))
    refine ⟨List.nodup_cons.mpr ⟨fun hx => ?_, htaken⟩, fun z hz => ?_⟩
    · rcases hnew' x hx with hx | hx
      · exact (List.nodup_cons.mp hcons).1 hx
      · exact hx (hmem x (.inl rfl))
    · rcases List.mem_cons.mp hz with rfl | hz
      · exact .inl (hperm.mem_iff.mpr (by simp))
      · exact (hnew' z hz).imp_left fun hz => hperm.mem_iff.mpr (List.mem_cons_of_mem x hz)

/-- From one handle on, the handles taken are those that can be reached from it. -/
theorem mem_iff_reach {x z : AtomId} (h : Explores next [x] [x] taken) : z ∈ taken ↔ Reach next x z := by
  have hx : x ∈ taken := h.mem_of_mem_pending (by simp)
  constructor
  · intro hz
    obtain ⟨y, hy, hreach⟩ := h.reach_of_mem hz
    rwa [List.mem_singleton.mp hy] at hreach
  · intro hreach
    induction hreach with
    | refl => exact hx
    | step _ hz ih =>
      rcases h.closed (by simp) (by simp) (.inr ih) hz with hz | hz
      · rwa [List.mem_singleton.mp hz]
      · exact hz

theorem nodup {x : AtomId} (h : Explores next [x] [x] taken) : taken.Nodup :=
  (h.nodup_and_new (by simp) (by simp)).1

end Explores

/-! ### How long an exploration takes -/

/-- A bound on how many handles are still taken, for an exploration inside a list of handles. -/
def explorationRoom (all seen pending : List AtomId) : Nat :=
  (all.filter fun z => !seen.contains z).length + pending.length

theorem explorationRoom_take {next : AtomId → List AtomId} {all seen seen' pending pending' rest : List AtomId}
    {x : AtomId} (hall : all.Nodup) (hnext : ∀ z ∈ next x, z ∈ all) (hpending : pending.Perm (x :: rest))
    (hpending' : pending'.Perm (rest ++ fresh seen (next x))) (hseen : ∀ z, z ∈ seen' ↔ z ∈ seen ∨ z ∈ next x) :
    explorationRoom all seen' pending' < explorationRoom all seen pending := by
  have hlength : ((all.filter fun z => !seen'.contains z) ++ fresh seen (next x)).length ≤
      (all.filter fun z => !seen.contains z).length := by
    refine List.Nodup.length_le_of_subset (List.nodup_append.mpr ⟨hall.filter _, nodup_fresh, ?_⟩) ?_
    · rintro y hy z hz rfl
      have hy : y ∉ seen' := by simpa using (List.mem_filter.mp hy).2
      exact hy ((hseen y).mpr (.inr (mem_fresh.mp hz).1))
    · intro z hz
      rcases List.mem_append.mp hz with hz | hz
      · obtain ⟨hz, hnot⟩ := List.mem_filter.mp hz
        have hnot : z ∉ seen' := by simpa using hnot
        exact List.mem_filter.mpr ⟨hz, by simpa using fun h => hnot ((hseen z).mpr (.inl h))⟩
      · obtain ⟨hz, hnot⟩ := mem_fresh.mp hz
        exact List.mem_filter.mpr ⟨hnext z hz, by simpa using hnot⟩
  have h1 := hpending.length_eq
  have h2 := hpending'.length_eq
  rw [List.length_append] at hlength h2
  rw [List.length_cons] at h1
  unfold explorationRoom
  omega

variable {neighbours : AtomId → Metered (List AtomId)} {next : AtomId → List AtomId}

/-- With enough fuel the closure explores everything, and answers what was seen and what is taken. -/
theorem closure_explores {all : List AtomId} (hall : all.Nodup)
    (hneighbours : ∀ x, (neighbours x).answer = .ok (next x)) (hnext : ∀ x, ∀ z ∈ next x, z ∈ all) {fuel : Nat}
    {seen pending : List AtomId} (hpending : ∀ z ∈ pending, z ∈ seen) (hfuel : explorationRoom all seen pending ≤ fuel) :
    ∃ taken found, Explores next seen pending taken ∧ (closure neighbours fuel seen pending).answer = .ok found ∧
      ∀ z, z ∈ found ↔ z ∈ seen ∨ z ∈ taken := by
  induction fuel generalizing seen pending with
  | zero =>
    -- without fuel there is no room, so nothing is pending
    have hnil : pending = [] := by
      unfold explorationRoom at hfuel
      exact List.length_eq_zero_iff.mp (by omega)
    subst hnil
    exact ⟨[], seen, .done, rfl, by simp⟩
  | succ fuel ih =>
    cases pending with
    | nil => exact ⟨[], seen, .done, rfl, by simp⟩
    | cons x pending =>
      have hperm : ((fresh seen (next x)).reverse ++ pending).Perm (pending ++ fresh seen (next x)) :=
        ((List.reverse_perm _).append_right _).trans List.perm_append_comm
      have hseen : ∀ z, z ∈ (fresh seen (next x)).reverse ++ seen ↔ z ∈ seen ∨ z ∈ next x := by
        intro z
        rw [List.mem_append, List.mem_reverse, mem_fresh]
        by_cases hz : z ∈ seen <;> simp [hz]
      have hpending' : ∀ z ∈ (fresh seen (next x)).reverse ++ pending, z ∈ (fresh seen (next x)).reverse ++ seen := by
        intro z hz
        rcases List.mem_append.mp hz with hz | hz
        · exact List.mem_append_left _ hz
        · exact List.mem_append_right _ (hpending z (List.mem_cons_of_mem x hz))
      have hroom := explorationRoom_take hall (hnext x) (List.Perm.refl _) hperm hseen
      obtain ⟨taken, found, hexplores, hanswer, hfound⟩ := ih hpending' (by omega)
      refine ⟨x :: taken, found, .take (List.Perm.refl _) hperm hseen hexplores, ?_, fun z => ?_⟩
      · rw [closure, Metered.answer_bind_of_ok (hneighbours x)]
        simp only [discover_eq]
        exact hanswer
      · rw [hfound, hseen, List.mem_cons]
        constructor
        · rintro ((hz | hz) | hz)
          · exact .inl hz
          · by_cases hzseen : z ∈ seen
            · exact .inl hzseen
            · have hzp : z ∈ (fresh seen (next x)).reverse ++ pending :=
                hperm.mem_iff.mpr (List.mem_append_right _ (mem_fresh.mpr ⟨hz, hzseen⟩))
              exact .inr (.inr (hexplores.mem_of_mem_pending hzp))
          · exact .inr (.inr hz)
        · rintro (hz | rfl | hz)
          · exact .inl (.inl hz)
          · exact .inl (.inl (hpending z (by simp)))
          · exact .inr hz

end HyperQuery
