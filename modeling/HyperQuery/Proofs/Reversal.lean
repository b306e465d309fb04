import HyperQuery.Proofs.Condition.Truth
import HyperQuery.Proofs.Store.Growth

/-!
# Walks backward

A link leads from an atom to another one in one direction exactly if it leads back in the opposite direction
(`Direction.leads_reverse`), where the opposite of both ways is both ways. So a walk from one atom reaches another one
exactly if the opposite walk from there reaches the first (`reach_reverse`). The types at or below a type, which are
computed without walks, are what the outward walk along subsumption links reaches, and so a type is below another one
exactly if that one is above it (`Walk.subsumption_dual`).
-/

namespace HyperQuery

/-! ### One step -/

namespace Direction

/-- The direction in which the same links lead back. -/
def reverse : Direction → Direction
  | .outward => .inward
  | .inward => .outward
  | .both => .both

/-- In the direction, a link with these targets leads from one atom to another. -/
def Leads (targets : List AtomId) (x z : AtomId) : Direction → Prop
  | .outward => ∃ rest, targets = x :: rest ∧ z ∈ rest
  | .inward => ∃ rest, targets = z :: rest ∧ x ∈ rest
  | .both => x ∈ targets ∧ z ∈ targets ∧ z ≠ x

theorem Leads.mem {d : Direction} {targets : List AtomId} {x z : AtomId} (h : d.Leads targets x z) : x ∈ targets := by
  cases d with
  | outward =>
    obtain ⟨rest, rfl, -⟩ := h
    exact List.mem_cons_self
  | inward =>
    obtain ⟨rest, rfl, hx⟩ := h
    exact List.mem_cons_of_mem z hx
  | both => exact h.1

theorem leads_reverse {d : Direction} {targets : List AtomId} {x z : AtomId} :
    d.reverse.Leads targets z x ↔ d.Leads targets x z := by
  cases d with
  | outward | inward => exact Iff.rfl
  | both =>
    constructor <;> rintro ⟨h, h', hne⟩ <;> exact ⟨h', h, hne.symm⟩

end Direction

/-- Successors lead somewhere exactly if predecessors lead back. -/
theorem reach_reverse {next previous : AtomId → List AtomId} (h : ∀ x z, z ∈ next x ↔ x ∈ previous z) {x z : AtomId} :
    Reach next x z ↔ Reach previous z x := by
  constructor
  · intro hreach
    induction hreach with
    | refl => exact .refl
    | step _ hz ih => exact ih.head ((h _ _).mp hz)
  · intro hreach
    induction hreach with
    | refl => exact .refl
    | step _ hz ih => exact ih.head ((h _ _).mpr hz)

namespace Walk

variable {s : Store} {w v : Walk} {x z : AtomId}

private theorem mem_across_iff {a : Atom} (hx : x ∈ a.targets) :
    z ∈ w.across x a ↔ (∀ ty ∈ w.via, ty = a.type) ∧ w.direction.Leads a.targets x z := by
  have hvia : (w.via.any fun ty => ty != a.type) = true ↔ ¬ ∀ ty ∈ w.via, ty = a.type := by
    cases w.via <;> simp
  unfold across
  split
  · rename_i hother
    exact ⟨fun hz => absurd hz List.not_mem_nil, fun hz => absurd hz.1 (hvia.mp hother)⟩
  · rename_i hown
    rw [hvia, Classical.not_not] at hown
    rw [and_iff_right hown]
    cases htargets : a.targets with
    | nil => simp [htargets] at hx
    | cons source rest =>
      rw [htargets] at hx
      cases w.direction with
      | outward => by_cases hsource : source = x <;> simp [Direction.Leads, hsource]
      | inward => by_cases hrest : x ∈ rest <;> simp [Direction.Leads, hrest, eq_comm]
      | both =>
        simp only [Direction.Leads, hx, true_and]
        simp

/-- A walk goes on along the links of its type that lead on in its direction. -/
theorem mem_next_iff (h : s.Consistent) : z ∈ w.next s x ↔
    ∃ id a, s.atom? id = some a ∧ (∀ ty ∈ w.via, ty = a.type) ∧ w.direction.Leads a.targets x z := by
  rw [mem_next_iff_across h]
  constructor
  · rintro ⟨id, a, ha, hx, hz⟩
    exact ⟨id, a, ha, (mem_across_iff hx).mp hz⟩
  · rintro ⟨id, a, ha, hvia, hleads⟩
    exact ⟨id, a, ha, hleads.mem, (mem_across_iff hleads.mem).mpr ⟨hvia, hleads⟩⟩

/-- A walk steps from one atom to another exactly if the opposite walk steps back. -/
theorem mem_next_reverse (h : s.Consistent) (hvia : v.via = w.via) (hdirection : v.direction = w.direction.reverse) :
    z ∈ w.next s x ↔ x ∈ v.next s z := by
  simp only [mem_next_iff h, hvia, hdirection, Direction.leads_reverse]

/-! ### What is reached -/

theorem ascending_of_reachable {ids : List AtomId} (hids : (w.reachable s).answer = .ok ids) : ids.Pairwise (· < ·) := by
  obtain ⟨found, -, hids⟩ := Metered.answer_bind_eq_ok_iff.mp hids
  have hids : (if w.includeStart then AtomSet.ofList found
      else (AtomSet.ofList found).filter fun id => id != w.start) = ids := Except.ok.inj hids
  subst hids
  split
  · exact AtomSet.sorted_ofList found
  · exact (AtomSet.sorted_ofList found).filter _

/-- A walk reaches an atom exactly if the opposite walk from there reaches its start. -/
theorem exists_reachable_reverse (h : s.Consistent) (hvia : v.via = w.via)
    (hdirection : v.direction = w.direction.reverse) (hstart : v.includeStart = w.includeStart) :
    ∃ ids ids', (w.reachable s).answer = .ok ids ∧ (v.reachable s).answer = .ok ids' ∧
      (v.start ∈ ids ↔ w.start ∈ ids') := by
  obtain ⟨ids, hids, hmem⟩ := answer_reachable (w := w) h
  obtain ⟨ids', hids', hmem'⟩ := answer_reachable (w := v) h
  have hreach : Reach (w.next s) w.start v.start ↔ Reach (v.next s) v.start w.start :=
    reach_reverse fun _ _ => mem_next_reverse h hvia hdirection
  refine ⟨ids, ids', hids, hids', ?_⟩
  rw [hmem, hmem', hreach, hstart, ne_comm]

/-- The types at or below a type are what the walk that the subsumption stands for reaches. -/
theorem exists_subtypes_eq_reachable (h : s.Consistent) {ty : AtomId} {d : TypeDescriptor} (hd : s.descriptor ty = .ok d)
    (order : VisitOrder) : ∃ w types, (Condition.subsumed ty).subsumptionWalk? order = some w ∧
      s.subtypes ty = .ok types ∧ types.Pairwise (· < ·) ∧ (w.reachable s).answer = .ok types := by
  obtain ⟨types, htypes, hascending, hmem⟩ := Store.exists_subtypes h hd
  obtain ⟨ids, hids, hmem'⟩ := answer_reachable (w := ⟨ty, some Store.subsumesType, .outward, order, true⟩) h
  have hbelow (x z : AtomId) :
      z ∈ s.below x ↔ z ∈ next ⟨ty, some Store.subsumesType, .outward, order, true⟩ s x := by
    rw [Store.mem_below h, mem_next_iff h]
    simp [Direction.Leads, eq_comm]
  have hsame : types = ids := by
    refine AtomSet.eq_of_mem_iff hascending (ascending_of_reachable hids) fun z => ?_
    rw [hmem, hmem', and_iff_left (by simp)]
    exact ⟨fun hz => hz.mono fun x z => (hbelow x z).mp, fun hz => hz.mono fun x z => (hbelow x z).mpr⟩
  exact ⟨_, types, rfl, htypes, hascending, hsame ▸ hids⟩

end Walk

namespace Condition

variable {g : Graph}

private theorem answer_satisfies {c : Condition} {w : Walk} {a : Atom} {id : AtomId} {ids : List AtomId}
    (hc : c.subsumptionWalk? .breadthFirst = some w) (hids : (w.reachable g.store).answer = .ok ids)
    (ha : g.store.atom? id = some a) : (c.satisfies g id).answer = .ok (ids.contains a.id) := by
  have hatom : (g.store.atom id : Except QueryError Atom) = .ok a := by simp [Store.atom, ha]
  have hreaches : (reaches g a w).answer = .ok (ids.contains a.id) := Metered.answer_bind_of_ok hids
  cases c with
  | subsumes _ | subsumed _ =>
    cases hc
    exact (Metered.answer_bind_of_ok hatom).trans hreaches
  | _ => simp [subsumptionWalk?] at hc

end Condition

/-- On a reachable store the types at or below a type are listed as the walk that the subsumption stands for reaches
them, in ascending order. A walk along links of one type, or of any, reaches one atom from another exactly if the walk
in the opposite direction reaches the first from that, where the opposite of both ways is both ways, so that such a walk
is symmetric; whether the starts are included is the same for both, and the orders of visiting do not matter. And a
stored atom satisfies that it subsumes another one exactly if that one satisfies that it is subsumed by the first. -/
theorem Walk.subsumption_dual {g : Graph} (hstore : g.store.Reachable) :
    (∀ ty d order, g.store.descriptor ty = .ok d →
      ∃ w types, (Condition.subsumed ty).subsumptionWalk? order = some w ∧ g.store.subtypes ty = .ok types ∧
        types.Pairwise (· < ·) ∧ (w.reachable g.store).answer = .ok types) ∧
    (∀ x y via direction order order' includeStart, ∃ fromX fromY,
      (Walk.reachable ⟨x, via, direction, order, includeStart⟩ g.store).answer = .ok fromX ∧
      (Walk.reachable ⟨y, via, direction.reverse, order', includeStart⟩ g.store).answer = .ok fromY ∧
      (y ∈ fromX ↔ x ∈ fromY)) ∧
    ∀ x y a b, g.store.atom? x = some a → g.store.atom? y = some b → ∃ holds,
      ((Condition.subsumes x).satisfies g y).answer = .ok holds ∧
      ((Condition.subsumed y).satisfies g x).answer = .ok holds := by
  have h := hstore.consistent.1
  refine ⟨fun ty d order hd => exists_subtypes_eq_reachable h hd order,
    fun x y via direction order order' includeStart => exists_reachable_reverse h rfl rfl rfl,
    fun x y a b hx hy => ?_⟩
  obtain ⟨above, below, habove, hbelow, hdual⟩ := exists_reachable_reverse (s := g.store)
    (w := ⟨x, some Store.subsumesType, .inward, .breadthFirst, true⟩)
    (v := ⟨y, some Store.subsumesType, .outward, .breadthFirst, true⟩) h rfl rfl rfl
  refine ⟨above.contains b.id, Condition.answer_satisfies rfl habove hy, ?_⟩
  have hcontains : above.contains b.id = below.contains a.id := by
    rw [h.id_eq hx, h.id_eq hy, Bool.eq_iff_iff]
    simpa using hdual
  rw [hcontains]
  exact Condition.answer_satisfies rfl hbelow hx

/-- Types one below the other in a circle, by a link that names two types at once. -/
theorem Walk.subsumption_dual_circle :
    let g : Graph := .ofStore (Store.afterChanges [.defineType "Top" .none [], .defineType "Left" .none [],
      .defineType "Right" .none [], .defineType "Bottom" .none [], .declareSubtype 3 4, .addLink 2 [4, 5, 6] .null,
      .declareSubtype 6 4])
    g.store.subtypes 3 = .ok [3, 4, 5, 6] ∧
      (∃ w, (Condition.subsumed 3).subsumptionWalk? .depthFirst = some w ∧
        (w.reachable g.store).answer = .ok [3, 4, 5, 6]) ∧
      (∃ fromX fromY, (Walk.reachable ⟨3, some 2, .outward, .depthFirst, false⟩ g.store).answer = .ok fromX ∧
        (Walk.reachable ⟨5, some 2, .inward, .breadthFirst, false⟩ g.store).answer = .ok fromY ∧
        (5 ∈ fromX ↔ 3 ∈ fromY)) ∧
      ∃ holds, ((Condition.subsumes 5).satisfies g 3).answer = .ok holds ∧
        ((Condition.subsumed 3).satisfies g 5).answer = .ok holds := by
  intro g
  have hsubtypes : g.store.subtypes 3 = .ok [3, 4, 5, 6] := by decide
  obtain ⟨hlisted, hreversed, hdual⟩ := subsumption_dual (g := g) (Store.reachable_afterChanges _)
  obtain ⟨w, types, hw, htypes, -, hreachable⟩ := hlisted 3 _ .depthFirst rfl
  obtain rfl : [3, 4, 5, 6] = types := Except.ok.inj (hsubtypes.symm.trans htypes)
  exact ⟨hsubtypes, ⟨w, hw, hreachable⟩, hreversed 3 5 (some 2) .outward .depthFirst .breadthFirst false,
    hdual 5 3 _ _ rfl rfl⟩

end HyperQuery
