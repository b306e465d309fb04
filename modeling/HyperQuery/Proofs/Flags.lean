import HyperQuery.Proofs.Cursor.Stepping
import HyperQuery.Proofs.Plan.Flags
import HyperQuery.Proofs.Session

/-!
# What compiled queries promise of their cursors

The estimate of a compiled query says whether its results come in ascending order and whether they can be sought. The
former is true: an ordered estimate opens as an ordered cursor, and every ordered cursor goes up (`ordered_of_compile`).
The latter can be wrong. Unions and filters of hashed look-ups are estimated to support seeking, which their cursors do
only if every alternative has an ordered leaf (`seekable_of_compile_iff`, `exists_unseekable`).
-/

namespace HyperQuery

namespace CompiledQuery

variable {q : CompiledQuery} {g : Graph} {ordered seekable : Bool}

/-- The state of an opened cursor is the one its blueprint starts in. -/
theorem start_of_cursor {cur : Cursor} (h : (q.cursor g).answer = .ok cur) :
    (cur.blueprint.access g).start.answer = .ok cur.state := by
  obtain ⟨s, hs, rfl⟩ := answer_cursor_eq_ok_iff.mp h
  exact hs

/-- A query with a plan that opens opens with the flags of the plan, and can be probed if it says so. -/
theorem cursor_of_opens (h : q.plan.Opens g ordered seekable) :
    ∃ cur, (q.cursor g).answer = .ok cur ∧ cur.look g (fun n => n.isOrdered) = ordered ∧
      cur.look g (fun n => n.isRandomAccess) = seekable ∧
      (seekable = true → ∀ qs : List Request, (∀ r ∈ qs, r.probes = true) → ∀ e,
        .error e ∉ (cur.blueprint.access g).toNavigation.replies qs cur.state) := by
  obtain ⟨items, R, s, hs, hR, hyields, hprobes, -⟩ := h q.config.materializeLimit
  exact ⟨_, answer_cursor_eq_ok_iff.mpr ⟨s, hs, rfl⟩, hyields.isOrdered hR, hyields.isRandomAccess hR,
    fun hk qs hqs e => Navigation.Probes.replies (hprobes hk) hyields hqs hR⟩

end CompiledQuery

namespace Planner

variable {p : Planner} {c : Condition} {q : CompiledQuery}

/-- Order is as promised. A query with an ordered estimate opens, as an ordered cursor. Whenever a cursor opened from a
query is ordered, steps forward find handles in strictly ascending order for as long as they succeed, whichever functions
supplied by users the query calls. Indexes that the condition names, under negations and mappings as well, have to keep
their word. -/
theorem ordered_of_compile (hstore : p.graph.store.Reachable)
    (hindex : ∀ ty path index literal op, Condition.indexedPart ty path index literal op ∈ c.constraints →
      index.Conforms)
    (hcompile : (p.compile c).answer = .ok q) :
    (q.estimate.ordered = true →
      ∃ cur, (q.cursor p.graph).answer = .ok cur ∧ cur.look p.graph (fun n => n.isOrdered) = true) ∧
    ∀ cur, (q.cursor p.graph).answer = .ok cur → cur.look p.graph (fun n => n.isOrdered) = true →
      ∀ found : List (Option AtomId),
        (cur.blueprint.access p.graph).toNavigation.replies (.replicate found.length .next) cur.state =
          Reply.elements found → (found.filterMap id).Pairwise (· < ·) := by
  have hconsistent := hstore.consistent.1
  constructor
  · intro ho
    obtain ⟨hnormal, f, hplan⟩ := planWith_of_compile hconsistent hindex hcompile
    obtain ⟨k, hopens⟩ := opens_planWith_of_ordered hconsistent hnormal (estimate_of_compile hcompile) ho hplan
    obtain ⟨cur, hcur, hordered, -⟩ := CompiledQuery.cursor_of_opens hopens
    exact ⟨cur, hcur, hordered⟩
  · intro cur hcur ho found hfound
    obtain ⟨items, hanswers⟩ := answers_of_compile hconsistent hindex hcompile
    obtain ⟨ordered, hreads⟩ := hanswers.reads
    have hreads := CompiledQuery.reads_of_cursor hreads hcur
    obtain rfl : true = ordered := ho.symm.trans hreads.isOrdered
    obtain ⟨I, hends, hI⟩ := cur.blueprint.exists_ends (g := p.graph)
    have hprefix := hreads.isPrefix_of_replies hends (hI _ (CompiledQuery.start_of_cursor hcur)) hfound
    exact hreads.ascending.sublist hprefix.sublist

/-- A range of an ordered index among the points, or what points at a type, over a store with two points. -/
theorem ordered_of_compile_points :
    let g : Graph := .ofStore (Store.afterChanges [.defineType "Point" .none [], .createPartIndex 3 "x" true,
      .addAtom 3 (.record [("x", .int 1)]), .addAtom 3 (.record [("x", .int 2)])])
    let p : Planner := ⟨.permissive, g⟩
    let c : Condition := .or [.and [.ofType (.handle 3), .indexedPart 3 "x" ⟨0, "Point.x", .ranged, none⟩ (.int 1) .gt],
      .incident 3]
    ∃ q, (p.compile c).answer = .ok q ∧ q.estimate.ordered = true ∧
      (q.estimate.ordered = true →
        ∃ cur, (q.cursor g).answer = .ok cur ∧ cur.look g (fun n => n.isOrdered) = true) ∧
      ∀ cur, (q.cursor g).answer = .ok cur → cur.look g (fun n => n.isOrdered) = true →
        ∀ found : List (Option AtomId),
          (cur.blueprint.access g).toNavigation.replies (.replicate found.length .next) cur.state =
            Reply.elements found → (found.filterMap id).Pairwise (· < ·) := by
  intro g p c
  have hflag : (p.compile c).answer.map (fun q => q.estimate.ordered) = .ok true := by decide
  rcases hq : (p.compile c).answer with e | q
  · rw [hq] at hflag
    cases hflag
  · rw [hq] at hflag
    have hindex : ∀ ty path index literal op, Condition.indexedPart ty path index literal op ∈ c.constraints →
        index.Conforms := by
      intro ty path index literal op hmem
      have hnamed : ty = 3 ∧ path = "x" ∧ index = ⟨0, "Point.x", .ranged, none⟩ ∧ literal = .int 1 ∧ op = .gt := by
        simpa [c, Condition.constraints, Condition.constraintsOf] using hmem
      obtain ⟨-, -, rfl, -⟩ := hnamed
      exact IndexHandle.conforms_of_view rfl
    exact ⟨q, rfl, Except.ok.inj hflag, ordered_of_compile (Store.reachable_afterChanges _) hindex hq⟩

/-- Seeking is not always as promised. A query with an estimate that says that it can be sought opens, but its cursor says
so too, and can be probed for exact handles, if and only if the prepared condition is a single leaf or all its
alternatives have ordered leaves. -/
theorem seekable_of_compile_iff (hstore : p.graph.store.Reachable)
    (hindex : ∀ ty path index literal op, Condition.indexedPart ty path index literal op ∈ c.constraints →
      index.Conforms)
    (hcompile : (p.compile c).answer = .ok q) (hk : q.estimate.randomAccess = true) :
    ∃ cur, (q.cursor p.graph).answer = .ok cur ∧
      (cur.look p.graph (fun n => n.isRandomAccess) = true ↔
        q.condition.isCombinator = false ∨ ∀ d ∈ q.condition.alternatives, d.hasOrdered p.graph = true) ∧
      ((∀ qs : List Request, (∀ r ∈ qs, r.probes = true) → ∀ e,
          .error e ∉ (cur.blueprint.access p.graph).toNavigation.replies qs cur.state) ↔
        q.condition.isCombinator = false ∨ ∀ d ∈ q.condition.alternatives, d.hasOrdered p.graph = true) := by
  have hconsistent := hstore.consistent.1
  obtain ⟨hnormal, f, hplan⟩ := planWith_of_compile hconsistent hindex hcompile
  obtain ⟨o, hopens⟩ := opens_planWith_of_sought hconsistent hnormal (estimate_of_compile hcompile) hk hplan
  obtain ⟨cur, hcur, -, hseekable, hprobes⟩ := CompiledQuery.cursor_of_opens hopens
  have hiff : (!q.condition.isCombinator || q.condition.alternatives.all (Condition.hasOrdered p.graph)) = true ↔
      q.condition.isCombinator = false ∨ ∀ d ∈ q.condition.alternatives, d.hasOrdered p.graph = true := by
    simp only [Bool.or_eq_true, Bool.not_eq_true', List.all_eq_true]
  refine ⟨cur, hcur, by rw [hseekable, hiff], ?_⟩
  rw [← hiff]
  refine ⟨fun hall => ?_, hprobes⟩
  -- one search for one handle tells
  by_contra hnot
  rw [← hseekable, Bool.not_eq_true] at hnot
  obtain ⟨e, hfails⟩ := cur.blueprint.fails_goTo 0 true cur.state hnot
  have hreply : (Request.goTo 0 true).perform _ |>.Fails cur.state e cur.state := hfails.bind
  refine hall [.goTo 0 true] (by simp [Request.probes]) e ?_
  simp [Navigation.replies, hreply.1]

/-- Either of two points that a hashed index finds, or a point: the second alternative has an ordered leaf, but the first
one has none. -/
theorem seekable_of_compile_iff_points :
    let g : Graph := .ofStore (Store.afterChanges [.defineType "Point" .none [], .createPartIndex 3 "x" false,
      .addAtom 3 (.record [("x", .int 1)]), .addAtom 3 (.record [("x", .int 2)])])
    let p : Planner := ⟨.permissive, g⟩
    let c : Condition := .or [.indexedPart 3 "x" ⟨0, "Point.x", .hashed, none⟩ (.int 1) .eq, .ofType (.handle 3)]
    ∃ q, (p.compile c).answer = .ok q ∧ q.estimate.randomAccess = true ∧
      ∃ cur, (q.cursor g).answer = .ok cur ∧
        (cur.look g (fun n => n.isRandomAccess) = true ↔
          q.condition.isCombinator = false ∨ ∀ d ∈ q.condition.alternatives, d.hasOrdered g = true) ∧
        ((∀ qs : List Request, (∀ r ∈ qs, r.probes = true) → ∀ e,
            .error e ∉ (cur.blueprint.access g).toNavigation.replies qs cur.state) ↔
          q.condition.isCombinator = false ∨ ∀ d ∈ q.condition.alternatives, d.hasOrdered g = true) := by
  intro g p c
  have hflag : (p.compile c).answer.map (fun q => q.estimate.randomAccess) = .ok true := by decide
  rcases hq : (p.compile c).answer with e | q
  · rw [hq] at hflag
    cases hflag
  · rw [hq] at hflag
    have hk : q.estimate.randomAccess = true := Except.ok.inj hflag
    have hindex : ∀ ty path index literal op, Condition.indexedPart ty path index literal op ∈ c.constraints →
        index.Conforms := by
      intro ty path index literal op hmem
      have hnamed : ty = 3 ∧ path = "x" ∧ index = ⟨0, "Point.x", .hashed, none⟩ ∧ literal = .int 1 ∧ op = .eq := by
        simpa [c, Condition.constraints, Condition.constraintsOf] using hmem
      obtain ⟨-, -, rfl, -⟩ := hnamed
      exact IndexHandle.conforms_of_view rfl
    exact ⟨q, rfl, hk, seekable_of_compile_iff (Store.reachable_afterChanges _) hindex hq hk⟩

/-- Of two look-ups in a hashed index the estimate says that they can be sought together, but their cursor does not, and
it refuses. -/
theorem exists_unseekable :
    let g : Graph := .ofStore (Store.afterChanges [.defineType "Point" .none [], .createPartIndex 3 "x" false,
      .addAtom 3 (.record [("x", .int 1)]), .addAtom 3 (.record [("x", .int 2)])])
    let p : Planner := ⟨.permissive, g⟩
    let index : IndexHandle := ⟨0, "Point.x", .hashed, none⟩
    let c : Condition := .or [.indexedPart 3 "x" index (.int 1) .eq, .indexedPart 3 "x" index (.int 2) .eq]
    index.Conforms ∧ g.store.partIndex? 3 "x" = some index ∧
      (do
        let q ← p.compile c
        let cur ← q.cursor g
        return (q.estimate.randomAccess, cur.look g (fun n => n.isRandomAccess),
          (cur.blueprint.access g).toNavigation.replies [.goTo 4 true] cur.state) : Metered _).answer =
        .ok (true, false, [.error (.unsupported .goToWithoutRandomAccess)]) := by
  intro g p index c
  exact ⟨IndexHandle.conforms_of_view rfl, by decide, by decide +kernel⟩

end Planner

end HyperQuery
