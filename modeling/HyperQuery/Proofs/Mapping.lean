import HyperQuery.Proofs.Cursor.Draining
import HyperQuery.Proofs.Plan.Limits
import HyperQuery.Proofs.Plan.Success
import HyperQuery.Proofs.Session

/-!
# Mappings go element by element

What is found for a mapped condition are the images of what is found for the condition, in the same order, and the atoms
without image are left out (`Session.findAll_map`). The condition is compiled twice for that, once on its own and once as
the operand of the mapping, where it is prepared and planned on the way; but the operand gets the plan that the condition
gets (`Planner.plan_of_compile_map`). And no result is lost on the way, because the capacity of a cursor suffices for all
it has to offer.
-/

namespace HyperQuery

variable {g : Graph} {ids : List AtomId} {mapping : Mapping}

namespace Blueprint

variable {b : Blueprint} {s : b.State}

/-- What a cursor is drained to is all that it finds, if its capacity suffices. -/
theorem Limited.finds_of_drain (h : b.Limited g) (hs : (b.access g).start.answer = .ok s)
    (hdrain : ((b.access g).toNavigation.drain s).1.answer = .ok ids) :
    (b.access g).toNavigation.Finds s ids ∧ ids.length ≤ (b.access g).capacity s := by
  obtain ⟨I, hends, hI⟩ := b.exists_ends (g := g)
  have hlength {found : List (Option AtomId)} (hfound : (b.access g).toNavigation.replies
      (.replicate found.length .next) s = Reply.elements found) :
      (found.filterMap id).length ≤ (b.access g).capacity s := by
    obtain ⟨t, htrace⟩ := hends.exists_traces (hI s hs) hfound
    exact h s hs _ t htrace
  rcases Navigation.finds_of_drain hdrain with hfinds | ⟨hfull, hreplies⟩
  · exact ⟨hfinds, by simpa using hlength hfinds.replies_eq⟩
  · have hle := hlength hreplies
    simp at hle
    omega

/-- Draining a mapping answers the images of what draining its base answers. -/
theorem answer_drain_map (hstore : g.store.Consistent) (h : b.Limited g) (hs : (b.access g).start.answer = .ok s)
    (hdrain : ((b.access g).toNavigation.drain s).1.answer = .ok ids) :
    (((Blueprint.map b mapping).access g).toNavigation.drain (.start s)).1.answer =
      do return (← ids.mapM (mapping.apply g)).filterMap id := by
  obtain ⟨I, _, hI, hconfined, -⟩ := exists_confined hstore b hs
  obtain ⟨hfinds, hlength⟩ := h.finds_of_drain hs hdrain
  exact MapEach.answer_drain hconfined hI hfinds hlength

end Blueprint

namespace Planner

variable {p : Planner} {c : Condition} {q r : CompiledQuery}

/-- A mapped condition gets the plan of the condition, mapped. -/
theorem plan_of_compile_map (hq : (p.compile c).answer = .ok q) (hr : (p.compile (.map c mapping)).answer = .ok r) :
    r.plan = .map q.plan mapping := by
  obtain ⟨-, hprepare, -, hplan, -⟩ := stages_of_compile hq
  obtain ⟨-, hprepare', -, hplan', -⟩ := stages_of_compile hr
  have hmapped : r.condition = .map c mapping := (Except.ok.inj hprepare').symm
  rw [hmapped, plan_map mapping hprepare hplan] at hplan'
  exact (Except.ok.inj hplan').symm

/-- The plan of a compiled query finds no more handles than the capacity of its cursor is. -/
theorem limited_of_compile (hstore : p.graph.store.Consistent) (hq : (p.compile c).answer = .ok q) :
    q.plan.Limited p.graph := by
  obtain ⟨-, hprepare, -, hplan, -⟩ := stages_of_compile hq
  exact limited_plan hstore hprepare hplan

end Planner

namespace Session

variable {s : Session} {c : Condition} {r : CompiledQuery}

/-- What is found for a mapped condition on a graph are the images of what is found for the condition. -/
theorem results_map (hstore : g.store.Consistent) (hresults : (s.results c g).answer = .ok ids)
    (hmapped : (s.compile (.map c mapping) g).answer = .ok r) :
    (s.results (.map c mapping) g).answer = do return (← ids.mapM (mapping.apply g)).filterMap id := by
  obtain ⟨q, cur, hq, hcur, hdrain⟩ := results_eq_ok_iff.mp hresults
  obtain ⟨u, hu, rfl⟩ := CompiledQuery.answer_cursor_eq_ok_iff.mp hcur
  have hplan : r.plan = .map q.plan mapping := Planner.plan_of_compile_map hq hmapped
  have hconfig : r.config = q.config := by
    obtain ⟨-, -, -, -, hconfig⟩ := Planner.stages_of_compile hq
    obtain ⟨-, -, -, -, hconfig'⟩ := Planner.stages_of_compile hmapped
    exact hconfig'.trans hconfig.symm
  obtain ⟨d, plan, e, hash, config⟩ := r
  obtain rfl : plan = .map q.plan mapping := hplan
  obtain rfl : config = q.config := hconfig
  have hopen : (CompiledQuery.cursor ⟨d, .map q.plan mapping, e, hash, q.config⟩ g).answer =
      .ok ⟨.map (q.plan.blueprint q.config.materializeLimit) mapping, .start u⟩ :=
    CompiledQuery.answer_cursor_eq_ok_iff.mpr ⟨.start u, Metered.answer_bind_of_ok hu, rfl⟩
  calc (s.results (.map c mapping) g).answer
    _ = (Cursor.run g (fun n => n.drain)
          ⟨.map (q.plan.blueprint q.config.materializeLimit) mapping, .start u⟩).1.answer :=
      (Metered.answer_bind_of_ok hmapped).trans (Metered.answer_bind_of_ok hopen)
    _ = _ := Blueprint.answer_drain_map hstore (Planner.limited_of_compile hstore hq _) hu hdrain

/-- Mappings go element by element. Where all results of a condition can be found, and the mapped condition compiles, all
results of that are found on the same graph: the images of the results of the condition, in the same order, without those
that have none. If the mapping fails for one of the results, finding them fails with the error for the first such. -/
theorem findAll_map {db db' other : Database} (hstore : db.graph.store.Reachable)
    (hfind : s.findAll c db = (.returned ids, db')) (hmapped : (s.compile (.map c mapping) db.graph).answer = .ok r)
    (hgraph : other.graph = db.graph) :
    (s.findAll (.map c mapping) other).1 = match ids.mapM (mapping.apply db.graph) with
      | .ok images => .returned (images.filterMap id)
      | .error e => .failed e := by
  have hresults := Database.readWithin_returned_iff.mp ⟨db', hfind⟩
  have hanswer := results_map hstore.consistent.1 hresults hmapped
  rw [← hgraph] at hanswer ⊢
  rw [findAll, Database.readWithin_outcome, hanswer]
  cases ids.mapM (mapping.apply other.graph) <;> rfl

/-- The first targets of the second targets of all atoms of a type. Atoms that are no links have none, neither among the
atoms of the type nor among the second targets. -/
theorem findAll_map_targets :
    let g : Graph := .ofStore (Store.afterChanges [.defineType "Edge" .none [], .addAtom 3 (.int 0),
      .addAtom 3 (.int 1), .addLink 3 [4, 5] .null, .addLink 3 [5, 6] .null, .addLink 3 [4, 7] .null,
      .addLink 3 [4, 4] .null])
    let db : Database := ⟨g, .initial, .zero⟩
    let s : Session := ⟨.permissive⟩
    let c : Condition := .map (.ofType (.handle 3)) (.target 1)
    (∃ db', s.findAll c db = (.returned [5, 6, 7, 4], db')) ∧
      (∃ r, (s.compile (.map c (.target 0)) g).answer = .ok r) ∧
      (s.findAll (.map c (.target 0)) db).1 = .returned [4, 5] := by
  intro g db s c
  have hfound : ∃ db', s.findAll c db = (.returned [5, 6, 7, 4], db') :=
    Database.readWithin_returned_iff.mpr (by decide)
  have hok : (s.compile (.map c (.target 0)) g).answer.isOk = true := by decide
  have himages : [5, 6, 7, 4].mapM ((Mapping.target 0).apply g) = .ok [none, some 4, some 5, none] := by decide
  obtain ⟨r, hr⟩ := exists_of_isOk hok
  obtain ⟨db', hfind⟩ := hfound
  refine ⟨⟨db', hfind⟩, ⟨r, hr⟩, ?_⟩
  rw [findAll_map (Store.reachable_afterChanges _) hfind hr rfl, himages]
  rfl

end Session

end HyperQuery
