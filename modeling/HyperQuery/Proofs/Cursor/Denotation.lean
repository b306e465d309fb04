import HyperQuery.Proofs.Cursor.Buffered
import HyperQuery.Proofs.Cursor.Filter
import HyperQuery.Proofs.Cursor.Frontier
import HyperQuery.Proofs.Cursor.Intersection
import HyperQuery.Proofs.Cursor.Snapshot
import HyperQuery.Proofs.Cursor.Union

/-!
# What composite cursors walk over

Cursors over snapshots, intersections, unions, filters, mappings and walks, put together in any way, denote a list of
items (`Navigation.Denotes`). They yield that list (`Navigation.Denotes.yields`), and to a caller who does not seek they
are the cursor over a snapshot of it, whichever way they are moved (`Navigation.Denotes.replies_eq_snapshot`).
-/

namespace HyperQuery

mutual

/-- The cursor has just been opened, is to walk over the items, and says whether they are in ascending order and whether
they can be sought. -/
inductive Navigation.Denotes : {σ : Type} → Navigation σ → σ → List AtomId → Bool → Bool → Prop
  | snapshot (snap : Snapshot) (hsorted : snap.arrangement = .sorted → snap.items.Pairwise (· < ·)) :
    Navigation.Denotes SnapshotCursor.navigation (.start snap) snap.items (snap.arrangement == .sorted)
      (snap.arrangement != .unordered)
  | buffered {σ : Type} {p : Producer σ} {s : σ} {items : List AtomId} {ordered seekable : Bool}
    (h : Producer.Denotes p s items ordered seekable) :
    Navigation.Denotes (Buffered.navigation p) (.start s) items ordered seekable

/-- The producer that a composite cursor is a buffer over, and its state when the cursor is opened. -/
inductive Producer.Denotes : {σ : Type} → Producer σ → σ → List AtomId → Bool → Bool → Prop
  | zigZag {σ τ : Type} {l : Navigation σ} {r : Navigation τ} {s : σ} {t : τ} {as bs : List AtomId}
    (hl : Navigation.Denotes l s as true true) (hr : Navigation.Denotes r t bs true true) :
    Producer.Denotes (Intersection.zigZag l r) (s, t) (AtomSet.common as bs) true true
  | sortedMerge {σ τ : Type} {l : Navigation σ} {r : Navigation τ} {s : σ} {t : τ} {as bs : List AtomId}
    {seekable seekable' : Bool} (hl : Navigation.Denotes l s as true seekable)
    (hr : Navigation.Denotes r t bs true seekable') :
    Producer.Denotes (Intersection.sortedMerge l r) (s, t) (AtomSet.common as bs) true false
  | union {σ τ : Type} {l : Navigation σ} {r : Navigation τ} {s : σ} {t : τ} {as bs : List AtomId}
    {ordered seekable ordered' seekable' : Bool} (hl : Navigation.Denotes l s as ordered seekable)
    (hr : Navigation.Denotes r t bs ordered' seekable') :
    Producer.Denotes (UnionState.producer l r) (UnionState.start l r s t)
      (UnionState.listed (ordered && ordered') as bs) (ordered && ordered')
      (ordered && ordered' && (seekable && seekable'))
  /-- The tests do not fail on the items, and decide a property of them. -/
  | filter {σ τ : Type} {base : Navigation σ} {s : σ} {items : List AtomId} {ordered seekable : Bool}
    {tests : Tester τ} {t : τ} {property : AtomId → Bool} {I : τ → Prop}
    (hbase : Navigation.Denotes base s items ordered seekable) (htests : tests.Decides (· ∈ items) property I)
    (ht : I t) :
    Producer.Denotes (Filter.producer base tests) (s, t) (items.filter property) ordered (ordered && seekable)
  /-- The mapping does not fail on the items. -/
  | map {σ : Type} {base : Navigation σ} {s : σ} {items : List AtomId} {ordered seekable : Bool}
    {image : AtomId → Metered (Option AtomId)} {f : AtomId → Option AtomId}
    (hbase : Navigation.Denotes base s items ordered seekable) (himage : ∀ x ∈ items, (image x).answer = .ok (f x)) :
    Producer.Denotes (MapEach.producer base image) s (items.filterMap f) false false
  /-- Neighbours can always be read, the walk comes to an end, and there is room for what it visits. -/
  | walk {order : VisitOrder} {neighbours : AtomId → Metered (List AtomId)} {next : AtomId → List AtomId}
    {origin : AtomId} {includeStart : Bool} {room : Nat} {taken : List AtomId}
    (hneighbours : ∀ x, (neighbours x).answer = .ok (next x))
    (hvisits : Visits order next [origin] [origin] (origin :: taken)) (hroom : taken.length ≤ room) :
    Producer.Denotes (Frontier.producer order neighbours origin includeStart room) .start
      (Frontier.walked origin includeStart taken) false false

end

mutual

/-- A cursor yields the items that it denotes. -/
theorem Navigation.Denotes.yields {σ : Type} {n : Navigation σ} {s : σ} {items : List AtomId}
    {ordered seekable : Bool} :
    n.Denotes s items ordered seekable → ∃ R, n.forward.Yields items ordered seekable R ∧ R items s
  | .snapshot snap hsorted => ⟨_, SnapshotCursor.yields snap hsorted, .before⟩
  | .buffered h => by
    obtain ⟨Q, hp, hs⟩ := h.yields
    exact ⟨_, Buffered.yields hp, Buffered.rests_start hs⟩

theorem Producer.Denotes.yields {σ : Type} {p : Producer σ} {s : σ} {items : List AtomId} {ordered seekable : Bool} :
    p.Denotes s items ordered seekable → ∃ Q, p.Yields items ordered seekable Q ∧ Q items s
  | .zigZag hl hr => by
    obtain ⟨R, hl, hs⟩ := hl.yields
    obtain ⟨S, hr, ht⟩ := hr.yields
    exact ⟨_, Intersection.zigZag_yields hl hr, .mk hs ht⟩
  | .sortedMerge hl hr => by
    obtain ⟨R, hl, hs⟩ := hl.yields
    obtain ⟨S, hr, ht⟩ := hr.yields
    exact ⟨_, Intersection.sortedMerge_yields hl hr, .mk hs ht⟩
  | .union hl hr => by
    obtain ⟨R, hl, hs⟩ := hl.yields
    obtain ⟨S, hr, ht⟩ := hr.yields
    exact UnionState.exists_yields hl hr hs ht
  | .filter hbase htests ht => by
    obtain ⟨R, hbase, hs⟩ := hbase.yields
    exact ⟨_, Filter.yields hbase htests, .mk hs ht⟩
  | .map hbase himage => by
    obtain ⟨R, hbase, hs⟩ := hbase.yields
    exact ⟨_, MapEach.yields hbase himage, .mk hs⟩
  | .walk hneighbours hvisits hroom => ⟨_, Frontier.yields hneighbours hvisits hroom, .start⟩

end

variable {σ : Type} {n : Navigation σ} {p : Producer σ} {s : σ} {items : List AtomId} {ordered seekable : Bool}

theorem Navigation.Denotes.ascending (h : n.Denotes s items ordered seekable) (ho : ordered = true) :
    items.Pairwise (· < ·) := by
  obtain ⟨R, hyields, -⟩ := h.yields
  exact hyields.ascending ho

/-- To a caller who does not seek, a cursor is the cursor over a snapshot of the items that it denotes. -/
theorem Navigation.Denotes.replies_eq_snapshot (h : n.Denotes s items ordered seekable) :
    (ordered = true → items.Pairwise (· < ·)) ∧ ∀ {qs : List Request}, (∀ q ∈ qs, q.seeks = false) →
      n.replies qs s = SnapshotCursor.navigation.replies qs (.start (.unordered items)) := by
  refine ⟨h.ascending, fun {qs} hqs => ?_⟩
  cases h with
  | snapshot snap hsorted => exact SnapshotCursor.mirrors_alike.simulates.replies_eq hqs (.mk rfl rfl)
  | buffered h =>
    obtain ⟨Q, hp, hs⟩ := h.yields
    have hsimulates := (Buffered.mirrors_window hp).simulates.trans Window.mirrors_snapshot.simulates
      fun q hq hseeks => by simp [hq] at hseeks
    exact hsimulates.replies_eq hqs ⟨_, Buffered.views_start hs, .mk rfl rfl⟩

/-- A filter over a union of an intersection and a mapping, forward to its end, back to its beginning, and closed. -/
theorem Navigation.Denotes.replies_eq_snapshot_nested :
    (Buffered.navigation (Filter.producer (Buffered.navigation (UnionState.producer
        (Buffered.navigation (Intersection.zigZag SnapshotCursor.navigation SnapshotCursor.navigation))
        (Buffered.navigation (MapEach.producer SnapshotCursor.navigation fun x => pure (if x = 9 then some 2 else none)))))
      (Tester.point fun x => pure (x != 5)))).replies
      [.hasNext, .next, .next, .next, .prev, .prev, .current, .hasPrev, .prev, .afterLast, .prev, .beforeFirst, .next,
        .close, .next]
      (.start (.start (UnionState.start
        (Buffered.navigation (Intersection.zigZag SnapshotCursor.navigation SnapshotCursor.navigation))
        (Buffered.navigation (MapEach.producer SnapshotCursor.navigation fun x => pure (if x = 9 then some 2 else none)))
        (.start (.start (.sorted [7, 1, 3, 5]), .start (.sorted [3, 5, 8]))) (.start (.start (.hashed [9, 3, 9])))), ())) =
      [.ok (.flag true), .ok (.element (some 3)), .ok (.element (some 2)), .ok (.element none),
        .ok (.element (some 2)), .ok (.element (some 3)), .ok (.standsOn 3), .ok (.flag false), .ok (.element none),
        .ok .done, .ok (.element (some 2)), .ok .done, .ok (.element (some 3)), .ok .done, .error .cursorClosed] := by
  have hzigZag := Producer.Denotes.zigZag (.snapshot (.sorted [7, 1, 3, 5]) fun _ => by decide)
    (.snapshot (.sorted [3, 5, 8]) fun _ => by decide)
  have hmap := Producer.Denotes.map (f := fun x => if x = 9 then some 2 else none)
    (.snapshot (.hashed [9, 3, 9]) (by simp [Snapshot.hashed])) fun x _ => Metered.answer_pure _
  have hunion := Producer.Denotes.union (.buffered hzigZag) (.buffered hmap)
  have hfilter := Producer.Denotes.filter (t := ()) (.buffered hunion)
    (Tester.decides_point fun x _ => Metered.answer_pure (x != 5)) trivial
  exact ((Navigation.Denotes.buffered hfilter).replies_eq_snapshot.2 (by decide)).trans rfl

end HyperQuery
