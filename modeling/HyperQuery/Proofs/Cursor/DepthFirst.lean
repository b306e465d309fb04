import HyperQuery.Proofs.Cursor.Visiting
import HyperQuery.Proofs.Query
import Mathlib.Data.List.Basic

/-!
# Depth first walks and preorder

A depth first walk takes the handle that was found last out of those that wait. What is found waits from then on, also
if a handle visited later leads to it again. So the walk visits next what was found by the handle that has come last of
those which still have finds waiting (`FollowsFinds`). That is a preorder (`InPreorder`), in which each handle is a
successor of the last one that has a successor not visited yet, exactly as long as the walk does not turn to a find of
old while a handle visited since leads to something that waits (`Strays`, `Frontier.depthFirst_preorder_iff`).
-/

namespace HyperQuery

/-- Each handle after the first is a successor of the last handle visited before it that has a successor not visited
yet. -/
def InPreorder (next : AtomId → List AtomId) (visited : List AtomId) : Prop :=
  ∀ before y after, visited = before ++ y :: after → before ≠ [] →
    ∃ earlier w later, before = earlier ++ w :: later ∧ y ∈ next w ∧ ∀ v ∈ later, ∀ z ∈ next v, z ∈ before

/-- Each handle after the first was found, before anything else led to it, by the last handle visited before it with
finds that are not visited yet. -/
def FollowsFinds (next : AtomId → List AtomId) (visited : List AtomId) : Prop :=
  ∀ before y after, visited = before ++ y :: after → before ≠ [] →
    ∃ earlier w later, before = earlier ++ w :: later ∧ y ∈ next w ∧ (∀ v ∈ earlier, y ∉ next v) ∧
      ∀ e v l, later = e ++ v :: l → ∀ z ∈ next v, z ∈ before ∨ ∃ u ∈ earlier ++ w :: e, z ∈ next u

/-- A handle `a` leads to `c`, which was found before `a` was visited and is not visited yet, but what is visited is
`b`, to which only handles before `a` lead. -/
def Strays (next : AtomId → List AtomId) (visited : List AtomId) : Prop :=
  ∃ before a mid b after c, visited = before ++ a :: (mid ++ b :: after) ∧ c ∈ after ∧ c ∈ next a ∧
    (∃ v ∈ before, c ∈ next v) ∧ (∃ v ∈ before, b ∈ next v) ∧ ∀ d ∈ a :: mid, b ∉ next d

variable {next : AtomId → List AtomId}

/-! ### Members of lists -/

private theorem exists_first {P : AtomId → Prop} {xs : List AtomId} (h : ∃ x ∈ xs, P x) :
    ∃ earlier w later, xs = earlier ++ w :: later ∧ P w ∧ ∀ v ∈ earlier, ¬ P v := by
  induction xs with
  | nil => simp at h
  | cons x xs ih =>
    by_cases hx : P x
    · exact ⟨[], x, xs, rfl, hx, by simp⟩
    · obtain ⟨earlier, w, later, rfl, hw, hearlier⟩ := ih (by simpa [hx] using h)
      exact ⟨x :: earlier, w, later, rfl, hw, List.forall_mem_cons.mpr ⟨hx, hearlier⟩⟩

private theorem exists_last {P : AtomId → Prop} {xs : List AtomId} (h : ∃ x ∈ xs, P x) :
    ∃ earlier w later, xs = earlier ++ w :: later ∧ P w ∧ ∀ v ∈ later, ¬ P v := by
  have hreverse : ∃ x ∈ xs.reverse, P x := by simpa using h
  obtain ⟨later, w, earlier, hxs, hw, hlater⟩ := exists_first hreverse
  refine ⟨earlier.reverse, w, later.reverse, ?_, hw, by simpa using hlater⟩
  rw [← List.reverse_reverse xs, hxs]
  simp

/-- What comes later is not the first. -/
private theorem ne_of_mem_after {x v c : AtomId} {xs before after : List AtomId} (h : x :: xs = before ++ v :: after)
    (hnodup : (x :: xs).Nodup) (hc : c ∈ after) : c ≠ x := by
  have hxs : xs = (before ++ v :: after).tail := congrArg List.tail h
  have hmem : c ∈ xs := by
    rw [hxs]
    cases before <;> simp [hc]
  exact fun heq => (List.nodup_cons.mp hnodup).1 (heq ▸ hmem)

/-- What comes before a member of a first part is in the first part. -/
private theorem mem_of_mem_after {y c : AtomId} {mid after first second : List AtomId}
    (h : mid ++ y :: after = first ++ second) (hnodup : (mid ++ y :: after).Nodup) (hc : c ∈ after)
    (hfirst : c ∈ first) : y ∈ first := by
  rw [List.append_cons] at h hnodup
  rcases List.append_eq_append_iff.mp h with ⟨more, rfl, -⟩ | ⟨more, hmore, -⟩
  · simp
  · have hmid : c ∈ mid ++ [y] := hmore ▸ List.mem_append_left more hfirst
    exact absurd rfl ((List.nodup_append.mp hnodup).2.2 c hmid c hc)

/-! ### The stack of a walk -/

namespace Visits

variable {order : VisitOrder} {seen pending visited : List AtomId}

/-- After a part of the walk, what was visited has led to what has been seen since. -/
theorem of_append {before rest : List AtomId} (h : Visits order next seen pending (before ++ rest))
    (hpending : ∀ z ∈ pending, z ∈ seen) :
    ∃ seen' pending', Visits order next seen' pending' rest ∧ (∀ z ∈ pending', z ∈ seen') ∧
      ∀ z, z ∈ seen' ↔ z ∈ seen ∨ ∃ v ∈ before, z ∈ next v := by
  induction before generalizing seen pending with
  | nil => exact ⟨seen, pending, h, hpending, by simp⟩
  | cons x before ih =>
    cases h with
    | @visit _ _ waiting _ _ hpick h =>
      have hpending' : ∀ z ∈ waiting ++ fresh seen (next x), z ∈ seen ++ next x := by
        intro z hz
        rcases List.mem_append.mp hz with hz | hz
        · exact List.mem_append_left _ (hpending z (hpick.perm.mem_iff.mpr (List.mem_cons_of_mem x hz)))
        · exact List.mem_append_right _ (mem_fresh.mp hz).1
      obtain ⟨seen', pending', hrest, hsub, hseen'⟩ := ih h hpending'
      refine ⟨seen', pending', hrest, hsub, fun z => ?_⟩
      rw [hseen', List.mem_append, or_assoc]
      simp

/-- The upper part of the stack is visited first, with what is found on the way, and what waits below after that. -/
theorem upper_first {lower upper : List AtomId} (h : Visits .depthFirst next seen (lower ++ upper) visited) :
    ∃ first second, visited = first ++ second ∧ (∀ z ∈ upper, z ∈ first) ∧ ∀ z ∈ first, z ∈ upper ∨ z ∉ seen := by
  generalize hpending : lower ++ upper = pending at h
  induction h generalizing upper with
  | done =>
    obtain rfl := (List.append_eq_nil_iff.mp hpending).2
    exact ⟨[], [], rfl, by simp, by simp⟩
  | @visit seen pending rest visited x hpick _ ih =>
    rcases List.eq_nil_or_concat' upper with rfl | ⟨upper, y, rfl⟩
    · exact ⟨[], x :: visited, rfl, by simp, by simp⟩
    · have hpick : pending = rest ++ [x] := hpick
      obtain ⟨hrest, hy⟩ : lower ++ upper = rest ∧ y = x := by
        rw [hpick, ← List.append_assoc] at hpending
        simpa using List.append_inj' hpending rfl
      subst hrest hy
      have hwaiting : lower ++ (upper ++ fresh seen (next y)) = lower ++ upper ++ fresh seen (next y) :=
        (List.append_assoc _ _ _).symm
      obtain ⟨first, second, rfl, hupper, hfirst⟩ := ih hwaiting
      refine ⟨y :: first, second, rfl, fun z hz => ?_, List.forall_mem_cons.mpr ⟨.inl (by simp), fun z hz => ?_⟩⟩
      · rcases List.mem_append.mp hz with hz | hz
        · exact List.mem_cons_of_mem y (hupper z (List.mem_append_left _ hz))
        · exact List.mem_cons.mpr (.inl (List.mem_singleton.mp hz))
      · rcases hfirst z hz with hz | hz
        · rcases List.mem_append.mp hz with hz | hz
          · exact .inl (List.mem_append_left _ hz)
          · exact .inr (mem_fresh.mp hz).2
        · exact .inr fun hseen => hz (List.mem_append_left _ hseen)

/-! ### The order of a depth first walk -/

section Order

variable {origin : AtomId} {taken before mid after : List AtomId} {v y z c : AtomId}

/-- What is visited after the origin was found before. -/
theorem exists_found (h : Visits order next [origin] [origin] (origin :: taken))
    (hsplit : origin :: taken = before ++ y :: after) (hbefore : before ≠ []) : ∃ v ∈ before, y ∈ next v := by
  have hnodup := h.explores.nodup
  rw [hsplit] at h hnodup
  obtain ⟨seen, pending, hrest, hpending, hseen⟩ := h.of_append (by simp)
  obtain ⟨x, before, rfl⟩ := List.exists_cons_of_ne_nil hbefore
  obtain rfl : origin = x := (List.cons_eq_cons.mp hsplit).1
  have hy : y ∈ seen := by
    cases hrest with
    | visit hpick _ => exact hpending y (hpick.perm.mem_iff.mpr (by simp))
  refine ((hseen y).mp hy).resolve_left fun hy => ?_
  obtain rfl := List.mem_singleton.mp hy
  simp at hnodup

/-- What a visited handle leads to has been visited, or is visited now or later. -/
theorem mem_of_mem_next (h : Visits order next [origin] [origin] (origin :: taken))
    (hsplit : origin :: taken = before ++ y :: after) (hv : v ∈ before) (hz : z ∈ next v) :
    z ∈ before ∨ z = y ∨ z ∈ after := by
  have hmem : v ∈ origin :: taken := hsplit ▸ List.mem_append_left _ hv
  have hreach : Reach next origin z := (h.explores.mem_iff_reach.mp hmem).step hz
  simpa [hsplit] using h.explores.mem_iff_reach.mpr hreach

/-- While something that a handle has found waits, nothing is visited that was found before. -/
theorem not_found_of_waiting (h : Visits .depthFirst next [origin] [origin] (origin :: taken))
    (hsplit : origin :: taken = before ++ v :: (mid ++ y :: after)) (hc : c ∈ next v) (hafter : c ∈ after)
    (hnew : ∀ u ∈ before, c ∉ next u) : ∀ u ∈ before, y ∉ next u := by
  have hnodup := h.explores.nodup
  have hne : c ≠ origin := ne_of_mem_after hsplit hnodup (by simp [hafter])
  rw [hsplit] at h hnodup
  obtain ⟨seen, pending, hrest, -, hseen⟩ := h.of_append (by simp)
  have hcseen : c ∉ seen := by
    intro hcseen
    rcases (hseen c).mp hcseen with hc | ⟨u, hu, hc⟩
    · exact hne (List.mem_singleton.mp hc)
    · exact hnew u hu hc
  have hyseen : y ∉ seen := by
    cases hrest with
    | visit _ hrest =>
      -- what waits above came in with the expansion of `v`, and `y` is part of that, since it is visited before `c`
      obtain ⟨first, second, hfirst, hupper, hnew⟩ := hrest.upper_first
      have hcfirst : c ∈ first := hupper c (mem_fresh.mpr ⟨hc, hcseen⟩)
      have hlater : (mid ++ y :: after).Nodup := (List.nodup_cons.mp (List.nodup_append.mp hnodup).2.1).2
      have hyfirst : y ∈ first := mem_of_mem_after hfirst hlater hafter hcfirst
      rcases hnew y hyfirst with hy | hy
      · exact (mem_fresh.mp hy).2
      · exact fun hyseen => hy (List.mem_append_left _ hyseen)
  exact fun u hu hy => hyseen ((hseen y).mpr (.inr ⟨u, hu, hy⟩))

/-- A depth first walk follows its finds. -/
theorem followsFinds (h : Visits .depthFirst next [origin] [origin] (origin :: taken)) :
    FollowsFinds next (origin :: taken) := by
  intro before y after hsplit hbefore
  obtain ⟨earlier, w, later, rfl, hw, hearlier⟩ := exists_first (h.exists_found hsplit hbefore)
  refine ⟨earlier, w, later, rfl, hw, hearlier, ?_⟩
  rintro e v l rfl z hz
  by_contra hwaits
  obtain ⟨hnot, hnew⟩ := not_or.mp hwaits
  have hne : z ≠ y := fun heq => hnew ⟨w, by simp, heq ▸ hw⟩
  have hafter : z ∈ after := ((h.mem_of_mem_next hsplit (by simp) hz).resolve_left hnot).resolve_left hne
  have hsplit' : origin :: taken = (earlier ++ w :: e) ++ v :: (l ++ y :: after) := by simpa using hsplit
  exact h.not_found_of_waiting hsplit' hz hafter (fun u hu hz => hnew ⟨u, hu, hz⟩) w (by simp) hw

/-- A depth first walk is in preorder unless it strays. -/
theorem inPreorder_of_not_strays (h : Visits .depthFirst next [origin] [origin] (origin :: taken))
    (hstrays : ¬ Strays next (origin :: taken)) : InPreorder next (origin :: taken) := by
  intro before y after hsplit hbefore
  have hnodup := h.explores.nodup
  have hy : y ∉ before := by
    rw [hsplit] at hnodup
    exact fun hy => (List.nodup_append.mp hnodup).2.2 y hy y (by simp) rfl
  obtain ⟨u, hu, huy⟩ := h.exists_found hsplit hbefore
  obtain ⟨earlier, w, later, rfl, ⟨c, hc, hcnot⟩, hlater⟩ :=
    exists_last (P := fun w => ∃ z ∈ next w, z ∉ before) ⟨u, hu, y, huy, hy⟩
  have hlater (v : AtomId) (hv : v ∈ later) (z : AtomId) (hz : z ∈ next v) : z ∈ earlier ++ w :: later :=
    Classical.not_not.mp fun hnot => hlater v hv ⟨z, hz, hnot⟩
  refine ⟨earlier, w, later, rfl, ?_, hlater⟩
  -- otherwise the walk has strayed from `w` to something that was found earlier
  by_contra hwy
  have hne : c ≠ y := fun heq => hwy (heq ▸ hc)
  have hafter : c ∈ after := ((h.mem_of_mem_next hsplit (by simp) hc).resolve_left hcnot).resolve_left hne
  have hsince : ∀ d ∈ w :: later, y ∉ next d :=
    List.forall_mem_cons.mpr ⟨hwy, fun d hd hdy => hy (hlater d hd y hdy)⟩
  have hearlier : u ∈ earlier := (List.mem_append.mp hu).resolve_right fun hu => hsince u hu huy
  have hsplit' : origin :: taken = earlier ++ w :: (later ++ y :: after) := by simpa using hsplit
  have hfound : ∃ v ∈ earlier, c ∈ next v := by
    by_contra hnew
    exact h.not_found_of_waiting hsplit' hc hafter (fun v hv hcv => hnew ⟨v, hv, hcv⟩) u hearlier huy
  exact hstrays ⟨earlier, w, later, y, after, c, hsplit', hafter, hc, hfound, ⟨u, hearlier, huy⟩, hsince⟩

end Order

end Visits

/-- A list that strays is not in preorder. -/
theorem Strays.not_inPreorder {visited : List AtomId} (hnodup : visited.Nodup) (h : Strays next visited) :
    ¬ InPreorder next visited := by
  obtain ⟨before, a, mid, b, after, c, rfl, hafter, hc, -, -, hsince⟩ := h
  intro hpreorder
  obtain ⟨earlier, w, later, hsplit, hw, hlater⟩ := hpreorder (before ++ a :: mid) b after (by simp) (by simp)
  have ha : a ∈ later := by
    rcases List.append_eq_append_iff.mp hsplit with ⟨more, -, hmore⟩ | ⟨more, -, hmore⟩
    · exact absurd hw (hsince w (by simp [hmore]))
    · cases more with
      | nil =>
        obtain ⟨rfl, -⟩ := List.cons_eq_cons.mp hmore
        exact absurd hw (hsince w List.mem_cons_self)
      | cons x more =>
        obtain ⟨-, rfl⟩ := List.cons_eq_cons.mp hmore
        simp
  have hc : c ∈ before ++ a :: mid := hlater a ha c hc
  have hnodup : ((before ++ a :: mid) ++ b :: after).Nodup := by simpa using hnodup
  exact (List.nodup_append.mp hnodup).2.2 c hc c (List.mem_cons_of_mem b hafter) rfl

/-- A list strays only where two of its handles lead to the same one. -/
theorem Strays.exists_shared {visited : List AtomId} (hnodup : visited.Nodup) (h : Strays next visited) :
    ∃ v ∈ visited, ∃ a ∈ visited, v ≠ a ∧ ∃ c, c ∈ next v ∧ c ∈ next a := by
  obtain ⟨before, a, mid, b, after, c, rfl, -, hc, ⟨v, hv, hcv⟩, -, -⟩ := h
  refine ⟨v, by simp [hv], a, by simp, ?_, c, hcv, hc⟩
  rintro rfl
  exact (List.nodup_append.mp hnodup).2.2 v hv v (by simp) rfl

/-! ### The cursor of a depth first walk -/

namespace Frontier

/-- On a finite graph whose neighbours can be read, the steps forward of a depth first walk come to an end and have found
everything that can be reached, each handle once, less the origin if that is left out. What they have found, behind the
origin, follows the finds of the walk. It is in preorder exactly if it does not stray, and so on every graph where no
two of these handles lead to the same one. -/
theorem depthFirst_preorder_iff {neighbours : AtomId → Metered (List AtomId)} {origin : AtomId} (includeStart : Bool)
    (room : Nat) {vertices : List AtomId} (horigin : origin ∈ vertices)
    (hvertices : ∀ x ∈ vertices, ∃ ids, (neighbours x).answer = .ok ids ∧ ids ⊆ vertices) :
    let next := successors neighbours
    ∃ taken : List AtomId,
      (∀ k, (Buffered.navigation (producer .depthFirst neighbours origin includeStart room)).replies
          (.replicate ((walked origin includeStart taken).length + k) .next) (.start .start) =
        Reply.elements ((walked origin includeStart taken).map some ++ .replicate k none)) ∧
      (origin :: taken).Nodup ∧ (∀ z, z ∈ origin :: taken ↔ Reach next origin z) ∧
      FollowsFinds next (origin :: taken) ∧
      (InPreorder next (origin :: taken) ↔ ¬ Strays next (origin :: taken)) ∧
      ((∀ v a c, Reach next origin v → Reach next origin a → c ∈ next v → c ∈ next a → v = a) →
        InPreorder next (origin :: taken)) := by
  intro next
  obtain ⟨taken, hvisits, hreplies⟩ := exists_replies_walked .depthFirst includeStart room horigin hvertices
  have hnodup : (origin :: taken).Nodup := hvisits.explores.nodup
  have hmem (z : AtomId) : z ∈ origin :: taken ↔ Reach next origin z := hvisits.explores.mem_iff_reach
  refine ⟨taken, hreplies, hnodup, hmem, hvisits.followsFinds,
    ⟨fun hpreorder hstrays => hstrays.not_inPreorder hnodup hpreorder, hvisits.inPreorder_of_not_strays⟩,
    fun hforest => hvisits.inPreorder_of_not_strays fun hstrays => ?_⟩
  obtain ⟨v, hv, a, ha, hne, c, hcv, hca⟩ := hstrays.exists_shared hnodup
  exact hne (hforest v a c ((hmem v).mp hv) ((hmem a).mp ha) hcv hca)

/-- Two ways to one handle, a way back to the origin and a handle that leads to itself. -/
theorem depthFirst_preorder_iff_diamond :
    let neighbours : AtomId → Metered (List AtomId) := fun
      | 1 => pure [2, 3]
      | 2 => pure [4, 2]
      | 3 => pure [4, 1]
      | 4 => pure []
      | x => Metered.fail (.missingAtom x)
    let next := successors neighbours
    (1 ∈ [1, 2, 3, 4] ∧ ∀ x ∈ [1, 2, 3, 4], ∃ ids, (neighbours x).answer = .ok ids ∧ ids ⊆ [1, 2, 3, 4]) ∧
      ∃ taken : List AtomId, (∀ z, z ∈ 1 :: taken ↔ Reach next 1 z) ∧ FollowsFinds next (1 :: taken) ∧
        (InPreorder next (1 :: taken) ↔ ¬ Strays next (1 :: taken)) := by
  intro neighbours next
  have hvertices : ∀ x ∈ [1, 2, 3, 4], ∃ ids, (neighbours x).answer = .ok ids ∧ ids ⊆ [1, 2, 3, 4] := by
    simp only [List.forall_mem_cons, List.not_mem_nil, false_implies, implies_true, and_true]
    exact ⟨⟨_, rfl, by decide⟩, ⟨_, rfl, by decide⟩, ⟨_, rfl, by decide⟩, ⟨_, rfl, by decide⟩⟩
  have horigin : 1 ∈ [1, 2, 3, 4] := by decide
  obtain ⟨taken, -, -, hmem, hfollows, hpreorder, -⟩ := depthFirst_preorder_iff true 0 horigin hvertices
  exact ⟨⟨horigin, hvertices⟩, taken, hmem, hfollows, hpreorder⟩

end Frontier

/-- The cursor of a depth first walk visits the target `6`, which its start has led to, before the target `5`, to which
the link of the target `7`, visited just before, leads. -/
theorem Walk.depthFirst_out_of_preorder :
    let g : Graph := .ofStore (Store.afterChanges [.defineType "Edge" .none [], .addAtom 3 (.int 0),
      .addAtom 3 (.int 1), .addAtom 3 (.int 2), .addAtom 3 (.int 3), .addLink 3 [4, 5, 6, 7] (.int 4),
      .addLink 3 [7, 5] (.int 5)])
    let w : Walk := ⟨4, none, .outward, .depthFirst, false⟩
    (∃ cur, (Cursor.ofBlueprint g ((Plan.traversal w).blueprint none)).answer = .ok cur ∧
      (cur.blueprint.access g).toNavigation.replies (.replicate 4 .next) cur.state =
        Reply.elements [some 7, some 6, some 5, none]) ∧
      ¬ InPreorder (w.next g.store) [4, 7, 6, 5] := by
  intro g w
  constructor
  · refine ⟨_, rfl, ?_⟩
    decide
  · intro hpreorder
    obtain ⟨earlier, v, later, hsplit, h6, hlater⟩ := hpreorder [4, 7] 6 [5] rfl (by simp)
    have h7 : w.next g.store 7 = [5] := by decide
    rcases earlier with _ | ⟨x, _ | ⟨y, earlier⟩⟩
    · -- the last handle with a successor not visited is not the start, because `7` leads to `5`
      obtain ⟨rfl, rfl⟩ := List.cons_eq_cons.mp hsplit
      have h5 : 5 ∈ [4, 7] := hlater 7 (by simp) 5 (by simp [h7])
      exact absurd h5 (by decide)
    · obtain ⟨-, hsplit⟩ := List.cons_eq_cons.mp hsplit
      obtain ⟨rfl, -⟩ := List.cons_eq_cons.mp hsplit
      simp [h7] at h6
    · simpa using congrArg List.length hsplit

end HyperQuery
