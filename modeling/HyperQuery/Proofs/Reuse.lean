import HyperQuery.Proofs.Plan.Shape
import HyperQuery.Proofs.Query

/-!
# Compiled queries can be reused

Compiling looks at the graph, and a compiled query may be opened when the graph holds more than it did then. As long as
only data has been stored since, compiling the condition afresh would give the same query, with other sizes in its estimate
(`exists_compile_of_grows`), provided that the condition has no mappings. So a query that was compiled earlier finds what a
new one finds (`reuse_of_compile`).
-/

namespace HyperQuery

namespace Planner

open Condition (Unmapped NormalFormOf)

variable {config : PlannerConfig} {catalog : Catalog} {s s' : Store} {c : Condition} {q : CompiledQuery}

private theorem normalFormOf_unmapped {p : Planner} {d : Condition} (hmap : c.mapDepth = 0) (h : p.prepare c = .ok d) :
    NormalFormOf Unmapped d := by
  have hleaves : ∀ l ∈ c.leaves, l.Unmapped := by
    rintro l hl operand mapping rfl
    have hdepth := Condition.mapDepth_le_of_mem_leaves hl
    rw [hmap, Condition.mapDepth] at hdepth
    omega
  refine Condition.normalFormOf_simplify_toNormalForm (g := p.graph) ?_ ?_ (fun l hl _ => ?_) hleaves h
  · simp [Unmapped]
  · simp [Unmapped]
  · rintro operand mapping rfl
    cases hl

/-- Compiled after the store has grown, a condition without mappings gives the same query, but for the sizes that are
estimated. -/
theorem exists_compile_of_grows (h : s.Grows s') (hs : s.Consistent) (hs' : s'.Consistent) (hmap : c.mapDepth = 0)
    (hcompile : (compile ⟨config, ⟨s, catalog⟩⟩ c).answer = .ok q) :
    ∃ e, (compile ⟨config, ⟨s', catalog⟩⟩ c).answer = .ok { q with estimate := e } ∧ e.shape = q.estimate.shape := by
  obtain ⟨hprepare, he, hplan, hhash, hconfig⟩ := answer_compile_eq_ok_iff.mp hcompile
  have hprepare' : prepare ⟨config, ⟨s', catalog⟩⟩ c = .ok q.condition := (h.simplify _).trans hprepare
  obtain ⟨e, he', hshape⟩ := h.exists_estimate hs hs' he
  obtain ⟨f, hf⟩ := exists_plan_eq ⟨config, ⟨s, catalog⟩⟩ q.condition
  obtain ⟨f', hf'⟩ := exists_plan_eq ⟨config, ⟨s', catalog⟩⟩ q.condition
  have hplan' : Planner.plan ⟨config, ⟨s', catalog⟩⟩ q.condition = .ok q.plan := by
    rw [hf', h.planWith hs hs' (normalFormOf_unmapped hmap hprepare) he, ← hf, hplan]
  exact ⟨e, answer_compile_eq_ok_iff.mpr ⟨hprepare', he', hplan', hhash, hconfig⟩, hshape⟩

/-- Atoms and links that say nothing about types may be stored after a condition without mappings has been compiled, and
operations that store such may have failed. The condition compiles then, too, and the old query has the plan of the new
one. So it opens as the same cursor, and where both can be drained they yield the same handles. -/
theorem reuse_of_compile (hstore : s.Reachable) {changes : List Store.Change}
    (hdata : ∀ change ∈ changes, change.storesData = true) (hmap : c.mapDepth = 0)
    (hcompile : (compile ⟨config, ⟨s, catalog⟩⟩ c).answer = .ok q) :
    let g : Graph := ⟨changes.foldl Store.attempt s, catalog⟩
    ∃ q', (compile ⟨config, g⟩ c).answer = .ok q' ∧ q'.plan = q.plan ∧ q'.cursor g = q.cursor g ∧
      ∀ old new ids ids', (q.cursor g).answer = .ok old → (Cursor.run g (fun n => n.drain) old).1.answer = .ok ids →
        (q'.cursor g).answer = .ok new → (Cursor.run g (fun n => n.drain) new).1.answer = .ok ids' →
          ∀ id, id ∈ ids ↔ id ∈ ids' := by
  intro g
  obtain ⟨e, hcompile', -⟩ := exists_compile_of_grows (Store.grows_attempts hdata) hstore.consistent.1
    (hstore.attempts changes).consistent.1 hmap hcompile
  refine ⟨_, hcompile', rfl, rfl, fun old new ids ids' hold hids hnew hids' id => ?_⟩
  have hsame : old = new := Except.ok.inj (hold.symm.trans hnew)
  subst hsame
  rw [Except.ok.inj (hids.symm.trans hids')]

/-- Points that an index finds, or what two walks have in common, before and after a point and a link are stored and an
operation fails. -/
theorem reuse_of_compile_points :
    let s : Store := Store.afterChanges [.defineType "Point" .none [], .createPartIndex 3 "x" false,
      .addAtom 3 (.record [("x", .int 1)])]
    let changes : List Store.Change := [.addAtom 3 (.record [("x", .int 1)]), .addLink 3 [4, 5] .null, .addLink 9 [4] .null]
    let c : Condition := .or [.and [.ofType (.named "Point"), .part "x" (.int 1) .eq], .and [.subsumes 3, .subsumed 1]]
    let catalog : Catalog := (Graph.ofStore s).catalog
    let g : Graph := ⟨changes.foldl Store.attempt s, catalog⟩
    ∃ q q', (compile ⟨.permissive, ⟨s, catalog⟩⟩ c).answer = .ok q ∧ (compile ⟨.permissive, g⟩ c).answer = .ok q' ∧
      q'.plan = q.plan ∧ q'.cursor g = q.cursor g ∧
      ∀ old new ids ids', (q.cursor g).answer = .ok old → (Cursor.run g (fun n => n.drain) old).1.answer = .ok ids →
        (q'.cursor g).answer = .ok new → (Cursor.run g (fun n => n.drain) new).1.answer = .ok ids' →
          ∀ id, id ∈ ids ↔ id ∈ ids' := by
  intro s changes c catalog g
  have hok : (compile ⟨.permissive, ⟨s, catalog⟩⟩ c).answer.isOk = true := by decide +kernel
  obtain ⟨q, hq⟩ := exists_of_isOk hok
  have hdata : ∀ change ∈ changes, change.storesData = true := by decide
  obtain ⟨q', h⟩ := reuse_of_compile (Store.reachable_afterChanges _) hdata rfl hq
  exact ⟨q, q', hq, h⟩

-- the query that was compiled before finds the point that was stored after
example : (do
    let s : Store := .afterChanges [.defineType "Point" .none [], .addAtom 3 (.record [("x", .int 1)])]
    let c : Condition := .and [.ofType (.named "Point"), .part "x" (.int 1) .eq]
    let q ← compile ⟨.permissive, .ofStore s⟩ c
    let g : Graph := .ofStore (s.attempt (.addAtom 3 (.record [("x", .int 1)])))
    (Cursor.run g (fun n => n.drain) (← q.cursor g)).1 : Metered _).answer = .ok [4, 5] := by
  decide +kernel

end Planner

end HyperQuery
