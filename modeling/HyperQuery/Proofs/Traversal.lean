import HyperQuery.Proofs.Cursor.Stepping
import HyperQuery.Proofs.Query

/-!
# Walking cursors compute what walks reach

A walk is carried out in two ways: to decide whether one atom is reached, the closure of its start is computed, last
in, first out and without regard to the order; to list what is reached, a cursor visits atom after atom in the order
that the walk asks for. Both are explorations from the same start, so that the cursor comes to an end and finds each
atom of the closure once (`Walk.visits_reachable`). Links may run in circles, lead back to their source or name a
target twice.
-/

namespace HyperQuery

namespace Walk

variable {g : Graph}

/-- On a reachable store every walk has a set of atoms that it reaches, which is what paths along its links lead to,
less the start if that is not included. The cursor of the walk opens, in either order of visiting, and its steps
forward find the atoms of that set, each once, and from then on nothing. The start comes first if it is included, and
otherwise never, whatever leads back to it. -/
theorem visits_reachable (hstore : g.store.Reachable) (w : Walk) (limit : Option Nat) :
    ∃ reached cur visited, (w.reachable g.store).answer = .ok reached ∧
      (Cursor.ofBlueprint g ((Plan.traversal w).blueprint limit)).answer = .ok cur ∧
      (Cursor.run g (fun n => n.drain) cur).1.answer = .ok visited ∧
      (∀ k, (cur.blueprint.access g).toNavigation.replies (.replicate (visited.length + k) .next) cur.state =
        Reply.elements (visited.map some ++ .replicate k none)) ∧
      visited.Nodup ∧ (∀ x, x ∈ visited ↔ x ∈ reached) ∧
      (∀ x, x ∈ reached ↔ Reach (w.next g.store) w.start x ∧ (w.includeStart = false → x ≠ w.start)) ∧
      (w.includeStart = true → visited.head? = some w.start) ∧ (w.includeStart = false → w.start ∉ visited) := by
  have hconsistent := hstore.consistent.1
  obtain ⟨reached, hreached, hmem⟩ := answer_reachable (w := w) hconsistent
  obtain ⟨taken, hvisits, hlists⟩ := Blueprint.exists_lists_walked hconsistent w
  have hnodup := hlists.nodup
  obtain ⟨R, s, hs, hR, hyields, -⟩ := hlists
  obtain ⟨t, hdrain, -⟩ := hyields.drain hR
  obtain ⟨I, hends, hI⟩ := (Blueprint.walk w).exists_ends (g := g)
  have hmem' (x : AtomId) : x ∈ Frontier.walked w.start w.includeStart taken ↔ x ∈ reached :=
    (Frontier.mem_walked hvisits).trans (hmem x).symm
  refine ⟨reached, ⟨.walk w, s⟩, _, hreached, Metered.answer_bind_of_ok hs, hdrain,
    replies_next_of_yields hends hyields (hI s hs) hR, hnodup, hmem', hmem, fun hstart => ?_, fun hstart h => ?_⟩
  · rw [Frontier.walked, hstart]
    rfl
  · exact ((hmem w.start).mp ((hmem' w.start).mp h)).2 hstart rfl

/-- A walk from an atom that lies on a circle and points at itself, along links that name one target twice. -/
theorem visits_reachable_circle :
    let g : Graph := .ofStore (Store.afterChanges [.defineType "Edge" .none [], .addAtom 3 (.int 0),
      .addAtom 3 (.int 1), .addAtom 3 (.int 2), .addLink 3 [4, 5, 6, 5] (.int 3), .addLink 3 [6, 4] (.int 4),
      .addLink 3 [4, 4] (.int 5)])
    let w : Walk := ⟨4, none, .outward, .depthFirst, false⟩
    (w.reachable g.store).answer = .ok [5, 6] ∧
      ∃ cur, (Cursor.ofBlueprint g ((Plan.traversal w).blueprint none)).answer = .ok cur ∧
        ∀ k, (cur.blueprint.access g).toNavigation.replies (.replicate (2 + k) .next) cur.state =
          Reply.elements ([some 6, some 5] ++ .replicate k none) := by
  intro g w
  obtain ⟨reached, cur, visited, hreached, hcur, hdrain, hreplies, -⟩ :=
    visits_reachable (g := g) (Store.reachable_afterChanges _) w none
  have hanswer : (w.reachable g.store).answer = .ok [5, 6] := by decide
  have hrun : (do
      let cur ← Cursor.ofBlueprint g ((Plan.traversal w).blueprint none)
      (Cursor.run g (fun n => n.drain) cur).1 : Metered _).answer = .ok [6, 5] := by decide
  rw [Metered.answer_bind_of_ok hcur, hdrain] at hrun
  cases hrun
  exact ⟨hanswer, cur, hcur, hreplies⟩

end Walk

end HyperQuery
