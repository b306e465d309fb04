import HyperQuery.Proofs.Plan.Nested
import HyperQuery.Proofs.Plan.Repeats
import HyperQuery.Proofs.Query

/-!
# Conjunctions repeat no atom unless a mapping drives them

A conjunct filters as a set, but it drives as it is read. Whichever conjunct drives a compiled conjunction, its cursor
finds no handle twice for as long as it does not fail, unless it is a mapping (`Planner.nodup_of_compile`). A mapping that
drives has its images found as often as they come (`Planner.exists_repeated`).

Which one drives is up to the estimates. Ordered conjuncts come first, and then sets that have to be collected anyway, to
which mappings belong.
-/

namespace HyperQuery

namespace Planner

variable {p : Planner} {c : Condition} {cs : List Condition} {q : CompiledQuery} {cur : Cursor}
  {found : List (Option AtomId)}

/-- The plan of a prepared conjunction repeats nothing unless a mapping drives it. -/
private theorem driver_of_compile (hstore : p.graph.store.Consistent) (hcompile : (p.compile c).answer = .ok q)
    (hand : q.condition = .and cs) :
    q.plan.driver.isMap = true ∨ q.plan.Distinct p.graph false := by
  obtain ⟨hprepare, -, hplan, -⟩ := answer_compile_eq_ok_iff.mp hcompile
  obtain ⟨f, hf⟩ := exists_plan_eq p q.condition
  have hnormal : Condition.NormalFormOf (Condition.Names fun _ _ _ => True) q.condition :=
    Condition.normalFormOf_names (fun _ _ _ _ => trivial) (fun _ _ _ _ _ _ => trivial) hprepare
  rw [hand] at hnormal hf hplan
  have harm := hnormal.arms (.and cs) (List.mem_singleton_self _)
  rcases Condition.isArm_cases harm.isArm with hleaf | ⟨cs', hcs', hleaf⟩
  · simp [Condition.isCombinator] at hleaf
  · cases hcs'
    exact driver_planWith_and hstore hleaf (hf.symm.trans hplan)

/-- Conjunctions repeat no handle unless a mapping drives them. In the first steps forward of the cursor that a compiled
conjunction is opened as, for as long as they succeed, no handle is found twice if what drives the plan is no mapping. If it
is a mapping, the handles that are found are, in the same order, among the images of those that steps forward find on the
cursor of its operand. -/
theorem nodup_of_compile (hstore : p.graph.store.Reachable) (hcompile : (p.compile c).answer = .ok q)
    (hand : q.condition = .and cs) (hcur : (q.cursor p.graph).answer = .ok cur)
    (hfound : (cur.blueprint.access p.graph).toNavigation.replies (.replicate found.length .next) cur.state =
      Reply.elements found) :
    (q.plan.driver.isMap = false → (found.filterMap id).Nodup) ∧
    ∀ operand mapping, q.plan.driver = .map operand mapping →
      ∃ s, ∃ xs : List AtomId, ((operand.blueprint q.config.materializeLimit).access p.graph).start.answer = .ok s ∧
        ((operand.blueprint q.config.materializeLimit).access p.graph).toNavigation.replies
          (.replicate xs.length .next) s = Reply.elements (xs.map some) ∧
        (found.filterMap id).Sublist (xs.filterMap (mapping.image p.graph)) := by
  obtain ⟨s, hs, rfl⟩ := CompiledQuery.answer_cursor_eq_ok_iff.mp hcur
  obtain ⟨I, hends, hI⟩ := (q.plan.blueprint q.config.materializeLimit).exists_ends (g := p.graph)
  obtain ⟨t, htrace⟩ := hends.exists_traces (hI s hs) hfound
  constructor
  · intro hdriver
    rcases driver_of_compile hstore.consistent.1 hcompile hand with hmap | hdistinct
    · simp [hdriver] at hmap
    · exact hdistinct _ s hs _ t htrace
  · intro operand mapping hdriver
    obtain ⟨s', xs, t', hs', hxs, hsublist⟩ := Plan.exists_traces_of_driver q.plan hdriver hs htrace
    exact ⟨s', xs, hs', Navigation.replies_of_traces hxs, hsublist⟩

private theorem exists_run {replies : List (Except QueryError Reply)} {k : Nat} {mapped : Bool}
    (h : (do
      let q ← p.compile c
      let cur ← q.cursor p.graph
      return (q.condition.isArm && q.condition.isCombinator, q.plan.driver.isMap,
        (cur.blueprint.access p.graph).toNavigation.replies (.replicate k .next) cur.state) : Metered _).answer =
      .ok (true, mapped, replies)) :
    ∃ q cs cur, (p.compile c).answer = .ok q ∧ q.condition = .and cs ∧ (q.cursor p.graph).answer = .ok cur ∧
      (cur.blueprint.access p.graph).toNavigation.replies (.replicate k .next) cur.state = replies ∧
      q.plan.driver.isMap = mapped := by
  obtain ⟨q, hq, h⟩ := Metered.answer_bind_eq_ok_iff.mp h
  obtain ⟨cur, hcur, h⟩ := Metered.answer_bind_eq_ok_iff.mp h
  obtain ⟨hand, h⟩ := Prod.ext_iff.mp (Except.ok.inj h)
  obtain ⟨hmapped, hreplies⟩ := Prod.ext_iff.mp h
  obtain ⟨harm, hcombinator⟩ := Bool.and_eq_true_iff.mp hand
  rcases Condition.isArm_cases harm with hleaf | ⟨cs, hcs, -⟩
  · simp [hleaf] at hcombinator
  · exact ⟨q, cs, cur, hq, hcs, hcur, hreplies, hmapped⟩

/-- The types that are types of atoms, over a new store: the types drive, and the mapping is collected. -/
theorem nodup_of_compile_types :
    let g : Graph := .ofStore .initial
    let p : Planner := ⟨.permissive, g⟩
    let c : Condition := .and [.ofType (.handle 1), .map .any .typeOf]
    let found : List (Option AtomId) := [some 1, none, none]
    ∃ q cs cur, (p.compile c).answer = .ok q ∧ q.condition = .and cs ∧ (q.cursor g).answer = .ok cur ∧
      (cur.blueprint.access g).toNavigation.replies (.replicate found.length .next) cur.state = Reply.elements found ∧
      q.plan.driver.isMap = false ∧ (found.filterMap id).Nodup := by
  intro g p c found
  have hrun : ∃ q cs cur, (p.compile c).answer = .ok q ∧ q.condition = .and cs ∧ (q.cursor g).answer = .ok cur ∧
      (cur.blueprint.access g).toNavigation.replies (.replicate found.length .next) cur.state = Reply.elements found ∧
      q.plan.driver.isMap = false := exists_run (by decide +kernel)
  obtain ⟨q, cs, cur, hq, hand, hcur, hfound, hdriver⟩ := hrun
  exact ⟨q, cs, cur, hq, hand, hcur, hfound, hdriver, (nodup_of_compile .initial hq hand hcur hfound).1 hdriver⟩

/-- The types of all atoms that pass a test. The mapping drives, and the type of both atoms of a new store is found
twice. -/
theorem exists_repeated :
    let g : Graph := ⟨.initial, ⟨fun _ => ⟨"all", .zero, fun _ _ => .ok true⟩, fun _ => ⟨"", fun _ _ => .ok none⟩⟩⟩
    let p : Planner := ⟨.permissive, g⟩
    let c : Condition := .and [.map .any .typeOf, .predicate 0]
    g.store.Reachable ∧
      ∃ q cs cur, (p.compile c).answer = .ok q ∧ q.condition = .and cs ∧ (q.cursor g).answer = .ok cur ∧
        (cur.blueprint.access g).toNavigation.replies (.replicate 3 .next) cur.state =
          Reply.elements [some 1, some 1, none] ∧
        q.plan.driver.isMap = true := by
  intro g p c
  exact ⟨.initial, exists_run (by decide +kernel)⟩

end Planner

end HyperQuery
