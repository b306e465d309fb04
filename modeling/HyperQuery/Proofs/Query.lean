import HyperQuery.Proofs.Plan.NormalForm
import HyperQuery.Proofs.Plan.Prepare

/-!
# What compiled queries yield

What compiling and opening answer is stated exactly, as what their stages answer (`Planner.answer_compile_eq_ok_iff`,
`CompiledQuery.answer_cursor_eq_ok_iff`). Opened without a limit on collected sets and drained, a compiled query yields
what its plan finds (`CompiledQuery.drain_of_finds`). From preparation, planning and cursors together follows that a
condition without mappings that compiles yields the stored atoms that satisfy it, each once (`Planner.drain_of_compile`).
-/

namespace HyperQuery

namespace CompiledQuery

variable {q : CompiledQuery} {g : Graph} {cur : Cursor}

/-- An opened query is the cursor of its plan's blueprint, in the state that this starts in. -/
theorem answer_cursor_eq_ok_iff : (q.cursor g).answer = .ok cur ↔
    ∃ s, ((q.plan.blueprint q.config.materializeLimit).access g).start.answer = .ok s ∧
      cur = ⟨q.plan.blueprint q.config.materializeLimit, s⟩ := by
  constructor
  · intro h
    obtain ⟨_, -, h⟩ := Metered.answer_bind_eq_ok_iff.mp h
    obtain ⟨s, hs, h⟩ := Metered.answer_bind_eq_ok_iff.mp h
    cases h
    exact ⟨s, hs, rfl⟩
  · rintro ⟨s, hs, rfl⟩
    exact (Metered.answer_bind_of_ok (a := ()) rfl).trans (Metered.answer_bind_of_ok hs)

/-- Draining the opened query answers what its plan finds. -/
theorem drain_of_finds {ordered seekable : Bool} {P : AtomId → Prop} (hlimit : q.config.materializeLimit = none)
    (hfinds : q.plan.Finds g ordered seekable P) :
    ∃ cur ids, (q.cursor g).answer = .ok cur ∧ (Cursor.run g (fun n => n.drain) cur).1.answer = .ok ids ∧
      ids.Nodup ∧ ∀ id, id ∈ ids ↔ P id := by
  obtain ⟨items, hlists, hmem⟩ := hfinds
  have hnodup := hlists.nodup
  obtain ⟨R, s, hs, hR, hyields, -⟩ := hlists
  obtain ⟨t, hdrain, -⟩ := hyields.drain hR
  refine ⟨⟨q.plan.blueprint none, s⟩, items, ?_, hdrain, hnodup, hmem⟩
  rw [answer_cursor_eq_ok_iff, hlimit]
  exact ⟨s, hs, rfl⟩

end CompiledQuery

namespace Planner

variable {p : Planner} {c : Condition} {q : CompiledQuery}

/-- A query is compiled by preparing, estimating and planning. -/
theorem answer_compile_eq_ok_iff : (p.compile c).answer = .ok q ↔
    p.prepare c = .ok q.condition ∧ q.condition.estimate p.graph = .ok q.estimate ∧ p.plan q.condition = .ok q.plan ∧
      q.hash = q.plan.hash p.graph.catalog ∧ q.config = p.config := by
  constructor
  · intro h
    obtain ⟨d, hd, h⟩ := Metered.answer_bind_eq_ok_iff.mp h
    obtain ⟨e, he, h⟩ := Metered.answer_bind_eq_ok_iff.mp h
    obtain ⟨plan, hplan, h⟩ := Metered.answer_bind_eq_ok_iff.mp h
    obtain ⟨u, -, h⟩ := Metered.answer_bind_eq_ok_iff.mp h
    cases h
    exact ⟨hd, he, hplan, rfl, rfl⟩
  · obtain ⟨d, plan, e, hash, config⟩ := q
    rintro ⟨hd, he, hplan, hhash, hconfig⟩
    obtain rfl : hash = plan.hash p.graph.catalog := hhash
    obtain rfl : config = p.config := hconfig
    refine Metered.answer_bind_eq_ok_iff.mpr ⟨d, hd, Metered.answer_bind_eq_ok_iff.mpr ⟨e, he, ?_⟩⟩
    exact Metered.answer_bind_eq_ok_iff.mpr ⟨plan, hplan, rfl⟩

/-- The stages of compiling a condition. -/
theorem stages_of_compile (h : (p.compile c).answer = .ok q) :
    ∃ e, p.prepare c = .ok q.condition ∧ q.condition.estimate p.graph = .ok e ∧ p.plan q.condition = .ok q.plan ∧
      q.config = p.config := by
  obtain ⟨hprepare, he, hplan, -, hconfig⟩ := answer_compile_eq_ok_iff.mp h
  exact ⟨q.estimate, hprepare, he, hplan, hconfig⟩

/-- A condition without mappings that compiles under a configuration without a limit on collected sets can be opened
and drained, which yields each stored atom that satisfies it once, and nothing else. Every stored atom has to decide
the constraints that the condition is made of, walks have to start at stored atoms, indexed parts have to carry the
registered index, and no value may equal two equality literals that do not equal each other. -/
theorem drain_of_compile (hstore : p.graph.store.Reachable) (hlimit : p.config.materializeLimit = none)
    (hmap : c.mapDepth = 0)
    (hdecided : ∀ l ∈ c.basics, ∀ id a, p.graph.store.atom? id = some a → ∃ b, (l.eval p.graph a).answer = .ok b)
    (hstart : ∀ l ∈ c.basics, ∀ id, l.walkStart? = some id → ∃ a, p.graph.store.atom? id = some a)
    (hindex : ∀ ty path index literal op, .indexedPart ty path index literal op ∈ c.basics →
      p.graph.store.partIndex? ty path = some index)
    (hequal : ∀ v ∈ c.equalityLiterals, ∀ w ∈ c.equalityLiterals, v.partialCompare w ≠ some .eq →
      ¬ ∃ x : Value, x.satisfies .eq v = true ∧ x.satisfies .eq w = true)
    (hcompile : (p.compile c).answer = .ok q) :
    ∃ cur ids, (q.cursor p.graph).answer = .ok cur ∧ (Cursor.run p.graph (fun n => n.drain) cur).1.answer = .ok ids ∧
      ids.Nodup ∧ ∀ id, id ∈ ids ↔ ∃ a, p.graph.store.atom? id = some a ∧ (c.satisfies p.graph id).answer = .ok true := by
  obtain ⟨e, hprepare, he, hplan, hconfig⟩ := stages_of_compile hcompile
  have hconsistent := hstore.consistent.1
  have hplannable : ∀ l ∈ c.leaves, l.Plannable p.graph := fun l hl =>
    Condition.plannable_of_mem_leaves hmap hdecided hstart hindex hl
  have hready := Condition.ready_simplify_toNormalForm hplannable hprepare
  obtain ⟨o, k, hfinds⟩ := finds_plan hconsistent hready.isNormalForm hready.plannable he hplan
  have hmistaken : ∀ v ∈ c.equalityLiterals, ∀ w ∈ c.equalityLiterals, ¬ Value.Mistaken v w := by
    intro v hv w hw hvw
    obtain ⟨hne, hboth⟩ := Value.exists_satisfies_eq_both_iff.mpr hvw
    exact hequal v hv w hw hne hboth
  rw [← hconfig] at hlimit
  refine CompiledQuery.drain_of_finds hlimit (hfinds.congr fun id => ?_)
  refine exists_congr fun a => and_congr_right fun ha => ?_
  rw [Condition.eval_of_satisfies ha]
  exact Condition.holds_simplify_toNormalForm (fun l hl => (hplannable l hl).decided id a ha) hmistaken hprepare

/-- An atom of a type, a disjunction and a negation, over the store with the value 5. -/
theorem drain_of_compile_nested :
    let p : Planner := ⟨.permissive, .ofStore (Condition.oneValueStore (.int 5))⟩
    let c : Condition := .and [.or [.ofType (.handle 3), .incident 1], .not (.value (.int 7) .eq)]
    ∃ q cur ids, (p.compile c).answer = .ok q ∧ (q.cursor p.graph).answer = .ok cur ∧
      (Cursor.run p.graph (fun n => n.drain) cur).1.answer = .ok ids ∧ ids.Nodup ∧
      ∀ id, id ∈ ids ↔ ∃ a, p.graph.store.atom? id = some a ∧ (c.satisfies p.graph id).answer = .ok true := by
  intro p c
  have hbasics : c.basics = [.ofType (.handle 3), .incident 1, .value (.int 7) .eq] := rfl
  have hok : (p.compile c).answer.isOk = true := by
    set_option maxRecDepth 2000 in decide
  obtain ⟨q, hq⟩ := exists_of_isOk hok
  have hdecided : ∀ l ∈ c.basics, ∀ id a, p.graph.store.atom? id = some a →
      ∃ b, (l.eval p.graph a).answer = .ok b := by
    rw [hbasics]
    simp only [List.forall_mem_cons]
    exact ⟨fun _ _ _ => ⟨_, rfl⟩, fun _ _ _ => ⟨_, rfl⟩, fun _ _ _ => ⟨_, Condition.eval_value_of_none rfl rfl⟩,
      by simp⟩
  have hstart : ∀ l ∈ c.basics, ∀ id, l.walkStart? = some id → ∃ a, p.graph.store.atom? id = some a := by
    simp [hbasics, Condition.walkStart?]
  have hindex : ∀ ty path index literal op, .indexedPart ty path index literal op ∈ c.basics →
      p.graph.store.partIndex? ty path = some index := by
    simp [hbasics]
  have hequal : ∀ v ∈ c.equalityLiterals, ∀ w ∈ c.equalityLiterals, v.partialCompare w ≠ some .eq →
      ¬ ∃ x : Value, x.satisfies .eq v = true ∧ x.satisfies .eq w = true := by
    intro v hv
    have hnone : c.equalityLiterals = [] := rfl
    simp [hnone] at hv
  obtain ⟨cur, ids, h⟩ :=
    drain_of_compile (Condition.reachable_oneValueStore _) rfl rfl hdecided hstart hindex hequal hq
  exact ⟨q, cur, ids, hq, h⟩

end Planner

end HyperQuery
