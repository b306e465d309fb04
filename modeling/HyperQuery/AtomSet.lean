import HyperQuery.Error

/-!
# Ascending sets of handles

A set of handles as a strictly ascending list. `mem_insert` and `mem_ofList` say what the operations hold;
`insert` and `ofList` keep the list strictly ascending (`sorted_insert`, `sorted_ofList`).
-/

namespace HyperQuery.AtomSet

/-- Puts a handle at its place in an ascending list, unless it is there. -/
def insert (id : AtomId) : List AtomId → List AtomId
  | [] => [id]
  | x :: rest => if id < x then id :: x :: rest else if id = x then x :: rest else x :: insert id rest

/-- The handles of a list in ascending order, each once. -/
def ofList (ids : List AtomId) : List AtomId := ids.foldr insert []

theorem mem_insert {id x : AtomId} {ids : List AtomId} : x ∈ insert id ids ↔ x = id ∨ x ∈ ids := by
  induction ids with
  | nil => simp [insert]
  | cons y rest ih =>
    unfold insert
    split
    · simp
    · split
      · rename_i h; subst h; simp
      · simp only [List.mem_cons, ih]
        constructor
        · rintro (h | h | h) <;> simp [h]
        · rintro (h | h | h) <;> simp [h]

theorem mem_ofList {x : AtomId} {ids : List AtomId} : x ∈ ofList ids ↔ x ∈ ids := by
  induction ids with
  | nil => simp [ofList]
  | cons y rest ih =>
    have : ofList (y :: rest) = insert y (ofList rest) := rfl
    rw [this, mem_insert, ih, List.mem_cons]

theorem sorted_insert {id : AtomId} {ids : List AtomId} (h : ids.Pairwise (· < ·)) :
    (insert id ids).Pairwise (· < ·) := by
  induction ids with
  | nil => simp [insert]
  | cons y rest ih =>
    obtain ⟨hy, hrest⟩ := List.pairwise_cons.mp h
    unfold insert
    split
    · rename_i hlt
      refine List.pairwise_cons.mpr ⟨fun z hz => ?_, h⟩
      rcases List.mem_cons.mp hz with rfl | hz
      · exact hlt
      · exact Nat.lt_trans hlt (hy z hz)
    · split
      · exact h
      · rename_i h1 h2
        refine List.pairwise_cons.mpr ⟨fun z hz => ?_, ih hrest⟩
        rcases mem_insert.mp hz with rfl | hz
        · exact Nat.lt_of_le_of_ne (Nat.le_of_not_lt h1) (fun e => h2 e.symm)
        · exact hy z hz

theorem sorted_ofList (ids : List AtomId) : (ofList ids).Pairwise (· < ·) := by
  induction ids with
  | nil => simp [ofList]
  | cons y rest ih => exact sorted_insert ih

end HyperQuery.AtomSet
