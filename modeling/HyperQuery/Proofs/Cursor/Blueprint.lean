import HyperQuery.Proofs.Cursor.Buffered
import HyperQuery.Proofs.Cursor.Filter
import HyperQuery.Proofs.Cursor.Frontier
import HyperQuery.Proofs.Cursor.Intersection
import HyperQuery.Proofs.Cursor.Snapshot
import HyperQuery.Proofs.Cursor.Union
import HyperQuery.Proofs.Walk

/-!
# What the cursors of a blueprint list

A blueprint lists items if its cursor opens and yields them (`Blueprint.Lists`), and can be probed for them if it can be
sought. Every kind of blueprint lists what its parts call for.
-/

namespace HyperQuery

variable {g : Graph}

namespace Blueprint

/-- Opened on the graph, the cursor yields the items. -/
def Lists (g : Graph) (b : Blueprint) (items : List AtomId) (ordered seekable : Bool) : Prop :=
  ∃ (R : List AtomId → b.State → Prop) (s : b.State), (b.access g).start.answer = .ok s ∧ R items s ∧
    (b.access g).toNavigation.forward.Yields items ordered seekable R ∧
    (seekable = true → (b.access g).toNavigation.Probes items R) ∧ items.Nodup

variable {b left right : Blueprint} {items as bs : List AtomId} {ordered seekable ordered' seekable' : Bool}

theorem Lists.nodup (h : b.Lists g items ordered seekable) : items.Nodup := by
  obtain ⟨R, s, -, -, -, -, hnodup⟩ := h
  exact hnodup

theorem lists_reading {r : Reading} {snap : Snapshot} (hsnap : (r.take g.store).answer = .ok snap)
    (hnodup : snap.items.Nodup) (hsorted : snap.arrangement = .sorted → snap.items.Pairwise (· < ·)) :
    (reading r).Lists g snap.items (snap.arrangement == .sorted) (snap.arrangement != .unordered) := by
  refine ⟨SnapshotCursor.Rests snap, .start snap, Metered.answer_bind_of_ok hsnap, .before,
    SnapshotCursor.yields snap hsorted, fun hk => SnapshotCursor.probes snap hsorted (bne_iff_ne.mp hk), hnodup⟩

theorem lists_sorted {r : Reading} {ids : List AtomId} (h : (r.take g.store).answer = .ok (.sorted ids)) :
    (reading r).Lists g (AtomSet.ofList ids) true true :=
  lists_reading h (AtomSet.nodup_of_ascending (AtomSet.sorted_ofList ids)) fun _ => AtomSet.sorted_ofList ids

private theorem answer_start_pair {σ τ ρ : Type} {x : Metered σ} {y : Metered τ} {s : σ} {t : τ} (f : σ → τ → ρ)
    (hx : x.answer = .ok s) (hy : y.answer = .ok t) : (do return f (← x) (← y) : Metered ρ).answer = .ok (f s t) := by
  rw [Metered.answer_bind_of_ok hx, Metered.answer_bind_of_ok hy]
  rfl

theorem Lists.zigZag (hl : left.Lists g as true true) (hr : right.Lists g bs true true) :
    (Blueprint.zigZag left right).Lists g (AtomSet.common as bs) true true := by
  have hnodup : (AtomSet.common as bs).Nodup := hl.nodup.filter _
  obtain ⟨R, s, hs, hRs, hyields, -⟩ := hl
  obtain ⟨S, t, ht, hSt, hyields', -⟩ := hr
  have hproducer := Intersection.zigZag_yields hyields hyields'
  exact ⟨_, .start (s, t), answer_start_pair (fun s t => Buffered.start (s, t)) hs ht,
    Buffered.rests_start (.mk hRs hSt), Buffered.yields hproducer, fun _ => Buffered.probes hproducer rfl rfl, hnodup⟩

theorem Lists.sortedMerge (hl : left.Lists g as true seekable) (hr : right.Lists g bs true seekable') :
    (Blueprint.sortedMerge left right).Lists g (AtomSet.common as bs) true false := by
  have hnodup : (AtomSet.common as bs).Nodup := hl.nodup.filter _
  obtain ⟨R, s, hs, hRs, hyields, -⟩ := hl
  obtain ⟨S, t, ht, hSt, hyields', -⟩ := hr
  have hproducer := Intersection.sortedMerge_yields hyields hyields'
  exact ⟨_, .start (s, t), answer_start_pair (fun s t => Buffered.start (s, t)) hs ht,
    Buffered.rests_start (.mk hRs hSt), Buffered.yields hproducer, by simp, hnodup⟩

theorem Lists.union (hl : left.Lists g as ordered seekable) (hr : right.Lists g bs ordered' seekable') :
    ∃ items, (Blueprint.union left right).Lists g items (ordered && ordered')
      (ordered && ordered' && (seekable && seekable')) ∧ ∀ z, z ∈ items ↔ z ∈ as ∨ z ∈ bs := by
  obtain ⟨R, s, hs, hRs, hyields, -⟩ := hl
  obtain ⟨S, t, ht, hSt, hyields', -⟩ := hr
  obtain ⟨Q, hunion, hQ⟩ := UnionState.exists_yields hyields hyields' hRs hSt
  have hstart := answer_start_pair (fun s t => Buffered.start
    (UnionState.start (left.access g).toNavigation (right.access g).toNavigation s t)) hs ht
  refine ⟨_, ⟨_, _, hstart, Buffered.rests_start hQ, Buffered.yields hunion,
    fun hk => Buffered.probes hunion (Bool.and_eq_true_iff.mp hk).1 hk, UnionState.nodup_listed⟩,
    fun z => UnionState.mem_listed⟩

/-- A walk visits no more atoms than there are ends of links. -/
theorem exists_taken_walk (hstore : g.store.Consistent) (w : Walk) :
    ∃ taken, Visits w.order (w.next g.store) [w.start] [w.start] (w.start :: taken) ∧ taken.length ≤ g.store.linkEnds := by
  obtain ⟨taken, hvisits, hlength⟩ := Frontier.exists_taken
    Store.nodup_linkTargets fun x z hz => Walk.mem_linkTargets_of_mem_next (w := w) hstore hz
  exact ⟨taken, hvisits, Nat.le_trans hlength Store.length_linkTargets_le_linkEnds⟩

/-- A walking cursor lists what its walk visits. -/
theorem exists_lists_walked (hstore : g.store.Consistent) (w : Walk) :
    ∃ taken, Visits w.order (w.next g.store) [w.start] [w.start] (w.start :: taken) ∧
      (Blueprint.walk w).Lists g (Frontier.walked w.start w.includeStart taken) false false := by
  obtain ⟨taken, hvisits, hroom⟩ := exists_taken_walk hstore w
  refine ⟨taken, hvisits, _, _, rfl, Buffered.rests_start .start,
    Buffered.yields (Frontier.yields (Walk.answer_neighbours hstore) hvisits hroom), by simp, ?_⟩
  exact Frontier.nodup_walked hvisits

theorem Lists.walk (hstore : g.store.Consistent) (w : Walk) :
    ∃ items, (Blueprint.walk w).Lists g items false false ∧
      ∀ z, z ∈ items ↔ Reach (w.next g.store) w.start z ∧ (w.includeStart = false → z ≠ w.start) := by
  obtain ⟨taken, hvisits, hlists⟩ := exists_lists_walked hstore w
  exact ⟨_, hlists, fun z => Frontier.mem_walked hvisits⟩

/-- A cursor that does not say that it can be sought refuses to be sought. -/
theorem fails_goTo (b : Blueprint) (key : AtomId) (exact : Bool) (s : b.State)
    (h : (b.access g).isRandomAccess s = false) : ∃ e, ((b.access g).goTo key exact).Fails s e s := by
  cases b with
  | reading r =>
    obtain ⟨snap, position, closed⟩ := s
    have harrangement : snap.arrangement = .unordered := by simpa [access, SnapshotCursor.navigation] using h
    exact SnapshotCursor.fails_goTo _ key exact harrangement
  | forwardOnly inner => exact ⟨_, rfl, rfl⟩
  | zigZag | sortedMerge | union | filter | map | walk => exact Buffered.fails_goTo s key exact h

/-! ### Filters -/

end Blueprint

namespace Check

/-- Before the first candidate and after every one the tests decide the property of the handles in the domain. -/
def Decide (g : Graph) (checks : List Check) (domain : AtomId → Prop) (property : AtomId → Bool) : Prop :=
  ∃ I, (Check.testers g checks).Decides domain property I ∧ I (Check.initials checks)

variable {domain : AtomId → Prop} {property : AtomId → Bool} {checks : List Check}

theorem decide_nil : Decide g [] domain fun _ => true := ⟨_, Tester.decides_always, trivial⟩

theorem Decide.point {condition : Condition} {p : AtomId → Bool}
    (hp : ∀ x, domain x → (condition.satisfies g x).answer = .ok (p x)) (h : Decide g checks domain property) :
    Decide g (.point condition :: checks) domain fun x => p x && property x := by
  obtain ⟨I, htests, hI⟩ := h
  exact ⟨_, Tester.Decides.both (Tester.decides_point hp) htests, trivial, hI⟩

theorem Decide.member {inner : Blueprint} {items : List AtomId} {ordered : Bool}
    (hinner : inner.Lists g items ordered true)
    (h : Decide g checks domain property) :
    Decide g (.member inner :: checks) domain fun x => items.contains x && property x := by
  obtain ⟨I, htests, hI⟩ := h
  obtain ⟨R, s, hs, hR, -, hprobes, -⟩ := hinner
  exact ⟨_, Tester.Decides.both (Tester.decides_member hs hR (hprobes rfl)) htests, .notYet, hI⟩

theorem Decide.gather {inner : Blueprint} {items : List AtomId} {ordered seekable : Bool}
    (hinner : inner.Lists g items ordered seekable) (h : Decide g checks domain property) :
    Decide g (.gather inner none :: checks) domain fun x => items.contains x && property x := by
  obtain ⟨I, htests, hI⟩ := h
  obtain ⟨R, s, hs, hR, hyields, -⟩ := hinner
  exact ⟨_, Tester.Decides.both (Tester.decides_gather hs hR hyields) htests, .notYet, hI⟩

end Check

theorem Blueprint.Lists.filter {base : Blueprint} {checks : List Check} {items : List AtomId} {ordered seekable : Bool}
    {property : AtomId → Bool} (hbase : base.Lists g items ordered seekable)
    (hchecks : Check.Decide g checks (· ∈ items) property) :
    (Blueprint.filter base checks).Lists g (items.filter property) ordered (ordered && seekable) := by
  have hnodup := hbase.nodup.filter property
  obtain ⟨R, s, hs, hR, hyields, -⟩ := hbase
  obtain ⟨I, htests, hI⟩ := hchecks
  have hfilter := Filter.yields hyields htests
  refine ⟨_, _, ?_, Buffered.rests_start (.mk hR hI), Buffered.yields hfilter,
    fun hk => Buffered.probes hfilter (Bool.and_eq_true_iff.mp hk).1 hk, hnodup⟩
  exact Metered.answer_bind_of_ok hs

end HyperQuery
