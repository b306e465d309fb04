import HyperQuery.Proofs.Cursor.Denotation

/-!
# Seeking in composite cursors

A cursor that is ordered and can be sought shows, as long as it is not moved backward, as the cursor over the sorted
snapshot of the items that it denotes (`Navigation.Denotes.replies_eq_sorted`): wherever it has been moved to, it finds
what is there, takes the closest greater element in place of what is not, and goes on with the element that follows
(`Navigation.Seeks`).

Going to a key in vain is not without effect, however: what lies before the element that the cursor stands on is
forgotten. A caller can tell if and only if there was something to forget (`Producer.Denotes.missed_goTo_iff`).
-/

namespace HyperQuery

open AtomSet (upFrom)

variable {σ τ : Type} {n : Navigation σ} {m : Navigation τ}

namespace Navigation

/-- Wherever it stands, the cursor goes to the items as one goes to the members of an ascending list. -/
structure Seeks (n : Navigation σ) (items : List AtomId) (s : σ) : Prop where
  found : ∀ {key exact}, key ∈ items →
    n.replies [.goTo key exact, .current] s = [.ok (.landed .found), .ok (.standsOn key)]
  closest : ∀ {key x}, key ∉ items → (items.find? fun y => decide (key < y)) = some x →
    n.replies [.goTo key false, .current] s = [.ok (.landed .closest), .ok (.standsOn x)]
  absent : ∀ {key exact}, key ∉ items → exact = true ∨ (items.find? fun y => decide (key < y)) = none →
    n.replies [.goTo key exact, .current] s = .ok (.landed .absent) :: n.replies [.current] s
  next : ∀ {x}, n.replies [.current] s = [.ok (.standsOn x)] →
    n.replies [.next] s = [.ok (.element (items.find? fun y => decide (x < y)))]

/-- Only the replies count. -/
theorem Seeks.congr {items : List AtomId} {s : σ} {t : τ} (h : m.Seeks items t)
    (heq : ∀ qs, (∀ q ∈ qs, q.looksBack = false) → n.replies qs s = m.replies qs t) : n.Seeks items s where
  found hkey := (heq _ (by simp [Request.looksBack])).trans (h.found hkey)
  closest hkey hx := (heq _ (by simp [Request.looksBack])).trans (h.closest hkey hx)
  absent hkey hx := by
    rw [heq _ (by simp [Request.looksBack]), heq _ (by simp [Request.looksBack])]
    exact h.absent hkey hx
  next hx := by
    rw [heq _ (by simp [Request.looksBack])] at hx ⊢
    exact h.next hx

theorem replies_goTo {key : AtomId} {exact : Bool} {landing : Landing} {qs : List Request} {s t : σ}
    (h : (n.goTo key exact).Gives s landing t) :
    n.replies (.goTo key exact :: qs) s = .ok (.landed landing) :: n.replies qs t := by
  obtain ⟨hanswer, hstate⟩ : ((Request.goTo key exact).perform n).Gives s (.landed landing) t := h.bind .pure
  rw [replies, hanswer, hstate]

theorem replies_next {x : Option AtomId} {s t : σ} (h : n.next.Gives s x t) :
    n.replies [.next] s = [.ok (.element x)] := by
  obtain ⟨hanswer, -⟩ : (Request.next.perform n).Gives s (.element x) t := h.bind .pure
  rw [replies, hanswer, replies]

theorem replies_current {x : AtomId} {s : σ} : n.replies [.current] s = [.ok (.standsOn x)] ↔ n.current s = .ok x := by
  rcases hx : n.current s with e | y
  · obtain ⟨hanswer, -⟩ : (Request.current.perform n).Fails s e s := .read (Move.Fails.bind (.lift hx))
    simp [replies, hanswer]
  · obtain ⟨hanswer, -⟩ : (Request.current.perform n).Gives s (.standsOn y) s :=
      Move.Gives.read.bind (Move.Gives.bind (.lift hx) .pure)
    simp [replies, hanswer]

end Navigation

/-! ### Sorted snapshots -/

namespace SnapshotCursor

variable {snap : Snapshot} {items : List AtomId}

private theorem arrangement_ofSorted : (Snapshot.ofSorted items).arrangement = .sorted := rfl

/-- A cursor stays open over its snapshot until it is closed. -/
private theorem keeps_perform {q : Request} (hq : q ≠ .close) : (q.perform navigation).Keeps (Over snap) := by
  cases q with
  | next => exact .bind keeps_next fun _ => .pure
  | prev => exact .bind keeps_prev fun _ => .pure
  | hasNext | hasPrev => exact .bind (fun _ => id) fun _ => .pure
  | current => exact .bind .read fun _ => .bind .lift fun _ => .pure
  | goTo key exact => exact .bind keeps_goTo fun _ => .pure
  | beforeFirst | afterLast => exact .bind (.bind keeps_ensureOpen fun _ => keeps_moveTo) fun _ => .pure
  | close => exact absurd rfl hq

theorem exists_after {qs : List Request} (hqs : .close ∉ qs) {c : SnapshotCursor} (hc : ∃ p, c = ⟨snap, p, false⟩) :
    ∃ p, navigation.after qs c = ⟨snap, p, false⟩ := by
  induction qs generalizing c with
  | nil => exact hc
  | cons q qs ih =>
    obtain ⟨hq, hqs⟩ := not_or.mp fun h => hqs (List.mem_cons.mpr h)
    exact ih hqs (keeps_perform (Ne.symm hq) c hc)

/-- Wherever it stands, the cursor over an ascending list goes to its members. -/
theorem seeks_sorted (h : items.Pairwise (· < ·)) {p : Position} :
    navigation.Seeks items ⟨.ofSorted items, p, false⟩ where
  found {key exact} hkey := by
    obtain ⟨rest, hup⟩ := AtomSet.exists_upFrom_of_mem h hkey
    obtain ⟨i, hdrop, hgoTo⟩ := gives_goTo_cons (p := p) arrangement_ofSorted h hup (.inl rfl : key = key ∨ exact = false)
    rw [if_pos rfl] at hgoTo
    rw [Navigation.replies_goTo hgoTo, Navigation.replies_current.mpr (current_on hdrop)]
  closest {key x} hkey hx := by
    rw [← AtomSet.head?_upFrom_of_not_mem hkey] at hx
    obtain ⟨rest, hup⟩ := List.head?_eq_some_iff.mp hx
    obtain ⟨i, hdrop, hgoTo⟩ := gives_goTo_cons (p := p) arrangement_ofSorted h hup (.inr rfl)
    have hxk : x ≠ key := fun heq => hkey (heq ▸ (AtomSet.mem_upFrom.mp (hup ▸ List.mem_cons_self)).1)
    rw [if_neg hxk] at hgoTo
    rw [Navigation.replies_goTo hgoTo, Navigation.replies_current.mpr (current_on hdrop)]
  absent {key exact} hkey hnone := by
    refine Navigation.replies_goTo (gives_goTo_absent arrangement_ofSorted h fun x hx => ?_)
    obtain ⟨rest, hup⟩ := List.head?_eq_some_iff.mp hx
    refine ⟨fun heq => hkey (heq ▸ (AtomSet.mem_upFrom.mp (hup ▸ List.mem_cons_self)).1), hnone.resolve_right ?_⟩
    rw [← AtomSet.head?_upFrom_of_not_mem hkey]
    exact fun hnone => Option.some_ne_none x (hx.symm.trans hnone)
  next {x} hx := by
    obtain ⟨i, rest, rfl, hdrop⟩ := exists_of_current (Navigation.replies_current.mp hx)
    rw [AtomSet.find?_gt_of_suffix h (hdrop ▸ List.drop_suffix _ _)]
    have hnext : items[i + 1]? = rest.head? := AtomSet.getElem?_of_drop (AtomSet.drop_succ_of_drop hdrop)
    rcases hrest : rest.head? with _ | y
    · exact Navigation.replies_next (gives_next_end rfl (hnext.trans hrest))
    · exact Navigation.replies_next (gives_next_some rfl (hnext.trans hrest))

end SnapshotCursor

/-! ### Composite cursors -/

variable {s : σ} {items : List AtomId}

private theorem Navigation.Denotes.replies_ahead {ordered seekable : Bool} (h : n.Denotes s items ordered seekable)
    (ho : ordered = true) (hk : seekable = true) {qs : List Request} (hqs : ∀ q ∈ qs, q.looksBack = false) :
    n.replies qs s = SnapshotCursor.navigation.replies qs (.start (.ofSorted items)) := by
  have hascending := h.ascending ho
  cases h with
  | snapshot snap _ =>
    obtain ⟨arrangement, items⟩ := snap
    have harrangement : arrangement = .sorted := beq_iff_eq.mp ho
    subst harrangement
    rfl
  | buffered h =>
    subst ho hk
    obtain ⟨Q, hp, hs⟩ := h.yields
    have hsimulates := (Buffered.mirrors_window hp).simulates.trans (Window.mirrors_sorted hascending).simulates
      fun _ _ _ => ⟨rfl, rfl⟩
    exact hsimulates.replies_eq hqs ⟨_, Buffered.views_start hs, .before⟩

/-- As long as it is not moved backward, a cursor that is ordered and can be sought is the cursor over the sorted
snapshot of the items that it denotes, and until it is closed it seeks them. -/
theorem Navigation.Denotes.replies_eq_sorted (h : n.Denotes s items true true) {qs : List Request}
    (hqs : ∀ q ∈ qs, q.looksBack = false) :
    n.replies qs s = SnapshotCursor.navigation.replies qs (.start (.sorted items)) ∧
      (.close ∉ qs → n.Seeks items (n.after qs s)) := by
  have hascending := h.ascending rfl
  have hsorted : Snapshot.sorted items = .ofSorted items :=
    congrArg (Snapshot.mk .sorted) (AtomSet.ofList_of_ascending hascending)
  refine ⟨hsorted ▸ h.replies_ahead rfl rfl hqs, fun hclose => ?_⟩
  obtain ⟨p, hafter⟩ : ∃ p, SnapshotCursor.navigation.after qs (.start (.ofSorted items)) =
      ⟨.ofSorted items, p, false⟩ := SnapshotCursor.exists_after hclose ⟨_, rfl⟩
  refine (SnapshotCursor.seeks_sorted hascending).congr (m := SnapshotCursor.navigation) (t := ⟨_, p, false⟩)
    fun qs' hqs' => ?_
  -- what is asked later is the end of what is asked altogether
  have hall : ∀ q ∈ qs ++ qs', q.looksBack = false := List.forall_mem_append.mpr ⟨hqs, hqs'⟩
  have hreplies := h.replies_ahead rfl rfl hall
  rw [replies_append, replies_append, h.replies_ahead rfl rfl hqs, hafter] at hreplies
  exact List.append_cancel_left hreplies

/-- A filter over an intersection with a union is sought forward, backward and in vain. -/
theorem Navigation.Denotes.replies_eq_sorted_nested :
    let union := Buffered.navigation (UnionState.producer SnapshotCursor.navigation SnapshotCursor.navigation)
    let base := Buffered.navigation (Intersection.zigZag union SnapshotCursor.navigation)
    let n := Buffered.navigation (Filter.producer base (Tester.point fun x => pure (x != 7)))
    let either := UnionState.start SnapshotCursor.navigation SnapshotCursor.navigation (.start (.sorted [1, 5]))
      (.start (.sorted [3, 5, 7, 9]))
    let s := Buffered.start (Buffered.start (Buffered.start either, SnapshotCursor.start (.sorted [3, 5, 7, 9])), ())
    n.replies [.goTo 4 false, .next, .goTo 3 true, .goTo 6 true, .next, .goTo 10 false, .current] s =
        [.ok (.landed .closest), .ok (.element (some 9)), .ok (.landed .found), .ok (.landed .absent),
          .ok (.element (some 5)), .ok (.landed .absent), .ok (.standsOn 5)] ∧
      n.replies [.goTo 3 true, .current] (n.after [.goTo 4 false, .goTo 6 true] s) =
        [.ok (.landed .found), .ok (.standsOn 3)] := by
  intro union base n either s
  have hunion := Producer.Denotes.union (.snapshot (.sorted [1, 5]) fun _ => by decide)
    (.snapshot (.sorted [3, 5, 7, 9]) fun _ => by decide)
  have hbase := Producer.Denotes.zigZag (.buffered hunion) (.snapshot (.sorted [3, 5, 7, 9]) fun _ => by decide)
  have hfilter := Producer.Denotes.filter (t := ()) (.buffered hbase)
    (Tester.decides_point fun x _ => Metered.answer_pure (x != 7)) trivial
  have h := Navigation.Denotes.buffered hfilter
  refine ⟨(h.replies_eq_sorted (by decide)).1.trans rfl, ?_⟩
  exact ((h.replies_eq_sorted (by decide)).2 (by decide)).found (by decide)

/-! ### Seeking in vain -/

namespace Window

variable {window : List AtomId} {p : Position} {key : AtomId} {exact : Bool} {c : SnapshotCursor}

private theorem eq_settled_of_absent (h : (goTo items key exact).Gives ⟨.unordered window, p, false⟩ .absent c) :
    c = settled items ⟨.unordered window, p, false⟩ := by
  by_cases hat : p.element? window = some key
  · obtain ⟨hfound, -⟩ := h.unique (gives_goTo_standing hat)
    cases hfound
  · rcases cases_upFrom items key exact with ⟨x, rest, hup, hx⟩ | hup
    · obtain ⟨hlanding, -⟩ := h.unique (gives_goTo_cons hat hup hx)
      split at hlanding <;> cases hlanding
    · exact (h.unique (gives_goTo_absent hat hup)).2

variable {ordered seekable : Bool}

private theorem replies_hasPrev_settled :
    (navigation items ordered seekable).replies [.hasPrev] (settled items ⟨.unordered window, p, false⟩) =
      [.ok (.flag false)] := by
  cases p <;> rfl

private theorem replies_next_beforeFirst :
    (navigation items ordered seekable).replies [.next] ⟨.unordered window, .beforeFirst, false⟩ =
      [.ok (.element window.head?)] := by
  have hfirst : window[0]? = window.head? := AtomSet.getElem?_of_drop rfl
  rcases hhead : window.head? with _ | x
  · exact Navigation.replies_next (SnapshotCursor.gives_next_end rfl (hfirst.trans hhead))
  · exact Navigation.replies_next (SnapshotCursor.gives_next_some rfl (hfirst.trans hhead))

/-- If the cursor has nothing before it, and the window begins as the items do in case it stands before the first
element, there is nothing to forget. -/
private theorem settled_eq_self (hitems : items.Pairwise (· < ·)) (hwindow : window <:+ items)
    (hback : p.preceding? window.length = none) (hhead : p = .beforeFirst → window.head? = items.head?) :
    settled items ⟨.unordered window, p, false⟩ = ⟨.unordered window, p, false⟩ := by
  cases p with
  | beforeFirst =>
    have hwhole := AtomSet.eq_of_suffix_of_head? hitems hwindow (hhead rfl)
    subst hwhole
    rfl
  | on i =>
    cases i with
    | zero => rfl
    | succ i => cases hback
  | afterLast =>
    have hnil : window = [] := by simpa [Position.preceding?] using hback
    subst hnil
    rfl

/-- There is a cursor over all of the items with the same before it. -/
private theorem exists_abreast (hitems : items.Pairwise (· < ·)) (hwindow : window <:+ items)
    (hp : ∀ i, p = .on i → i < window.length) (hhead : p = .beforeFirst → window.head? = items.head?) :
    ∃ d, Abreast items ⟨.unordered window, p, false⟩ d := by
  cases p with
  | beforeFirst =>
    have hwhole := AtomSet.eq_of_suffix_of_head? hitems hwindow (hhead rfl)
    subst hwhole
    exact ⟨_, .before⟩
  | on i =>
    obtain ⟨before, rfl⟩ := hwindow
    have hi : i < window.length := hp i rfl
    have hdrop : window.drop i = window[i] :: window.drop (i + 1) := List.drop_eq_getElem_cons hi
    refine ⟨_, .on hdrop (j := before.length + i) ?_⟩
    rw [← List.drop_drop, List.drop_left, hdrop]
  | afterLast => exact ⟨_, .after⟩

/-- What a caller can tell after a search in vain, and what a caller who does not go backward can tell. -/
private theorem settled_iff (hitems : items.Pairwise (· < ·)) (hwindow : window <:+ items)
    (hp : ∀ i, p = .on i → i < window.length) :
    let n := navigation items ordered seekable
    let c : SnapshotCursor := ⟨.unordered window, p, false⟩
    ((∀ later : List Request, (∀ q ∈ later, q.seeks = false) → n.replies later (settled items c) = n.replies later c) ↔
      n.replies [.hasPrev] c = [.ok (.flag false)] ∧
        (p = .beforeFirst → n.replies [.next] c = [.ok (.element items.head?)])) ∧
    ((∀ later : List Request, (∀ q ∈ later, q.seeks = false ∧ q.looksBack = false) →
        n.replies later (settled items c) = n.replies later c) ↔
      (p = .beforeFirst → n.replies [.next] c = [.ok (.element items.head?)])) := by
  intro n c
  have hhead (h : p = .beforeFirst → n.replies [.next] c = [.ok (.element items.head?)]) :
      p = .beforeFirst → window.head? = items.head? := by
    intro hbefore
    have hnext := h hbefore
    subst hbefore
    simpa [n, c, replies_next_beforeFirst] using hnext
  refine ⟨⟨fun h => ⟨?_, ?_⟩, fun ⟨hback, h⟩ later _ => ?_⟩, ⟨fun h => ?_, fun h later hlater => ?_⟩⟩
  · rw [← h _ (by simp [Request.seeks])]
    exact replies_hasPrev_settled
  · rintro rfl
    rw [← h _ (by simp [Request.seeks])]
    exact replies_next_beforeFirst
  · have hflag : [Except.ok (Reply.flag (p.preceding? window.length).isSome)] = [.ok (.flag false)] := hback
    have hnone : p.preceding? window.length = none := by simpa using hflag
    rw [settled_eq_self hitems hwindow hnone (hhead h)]
  · rintro rfl
    rw [← h _ (by simp [Request.seeks, Request.looksBack])]
    exact replies_next_beforeFirst
  · obtain ⟨d, hd⟩ := exists_abreast hitems hwindow hp (hhead h)
    have hforward : ∀ q ∈ later, q.looksBack = false := fun q hq => (hlater q hq).2
    rw [(mirrors_sorted hitems).simulates.replies_eq hforward hd,
      (mirrors_sorted hitems).simulates.replies_eq hforward (abreast_settled hd)]

end Window

/-- Going to a key in vain changes none of the later replies if and only if the cursor had nothing before it, and, in
case it stood before the first element, had all of the items after it. To a caller who does not go backward later, the
second condition is all that counts. -/
theorem Producer.Denotes.missed_goTo_iff {p : Producer σ} (h : p.Denotes s items true true) {qs : List Request}
    {key : AtomId} {exact : Bool} {b b' : Buffered σ} (hb : (Buffered.navigation p).after qs (.start s) = b)
    (hmissed : ((Buffered.navigation p).goTo key exact).Gives b .absent b') :
    let n := Buffered.navigation p
    ((∀ later : List Request, (∀ q ∈ later, q.seeks = false) → n.replies later b' = n.replies later b) ↔
      n.replies [.hasPrev] b = [.ok (.flag false)] ∧
        (b.position = .beforeFirst → n.replies [.next] b = [.ok (.element items.head?)])) ∧
    ((∀ later : List Request, (∀ q ∈ later, q.seeks = false ∧ q.looksBack = false) →
        n.replies later b' = n.replies later b) ↔
      (b.position = .beforeFirst → n.replies [.next] b = [.ok (.element items.head?)])) := by
  obtain ⟨Q, hp, hs⟩ := h.yields
  have hmirrors := Buffered.mirrors_window hp
  have hadmits (later : List Request) : ∀ q ∈ later, q.seeks = true → true = true ∧ true = true :=
    fun _ _ _ => ⟨rfl, rfl⟩
  have hviews := hmirrors.simulates.after (hadmits qs) (Buffered.views_start hs)
  rw [hb] at hviews
  have hreplies (later : List Request) := hmirrors.simulates.replies_eq (hadmits later) hviews
  have hgoTo : (Request.goTo key exact).seeks = true → true = true ∧ true = true := fun _ => ⟨rfl, rfl⟩
  obtain ⟨hanswer, hviews'⟩ := hmirrors.goTo hgoTo hviews
  rw [hmissed.1] at hanswer
  generalize (Window.navigation items true true).after qs _ = c at hviews hreplies hanswer hviews'
  cases hviews with
  | closed _ hclosed =>
    have hfails : (Window.goTo items key exact).Fails c .cursorClosed c := SnapshotCursor.fails_closed hclosed
    exact absurd (hanswer.trans hfails.1) (by simp)
  | @opened window s seen position exhausted hspans hbacks hwindow =>
    have hsettled : ((Window.navigation items true true).goTo key exact ⟨.unordered window, position, false⟩).2 = _ :=
      Window.eq_settled_of_absent ⟨hanswer.symm, rfl⟩
    rw [hsettled, hmissed.2] at hviews'
    have hreplies' (later : List Request) := hmirrors.simulates.replies_eq (hadmits later) hviews'
    intro n
    simp only [n, hreplies, hreplies']
    refine Window.settled_iff (hp.ascending rfl) hwindow ?_
    rintro i rfl
    exact Nat.lt_of_lt_of_le hbacks hspans.isPrefix.length_le

/-- On the first of three items nothing lies before the cursor, and a search in vain does not show. -/
theorem Producer.Denotes.missed_goTo_first :
    let p := Intersection.zigZag SnapshotCursor.navigation SnapshotCursor.navigation
    let n := Buffered.navigation p
    let b := n.after [.next] (.start (.start (.sorted [1, 3, 5]), .start (.sorted [1, 3, 5])))
    n.replies [.goTo 2 true] b = [.ok (.landed .absent)] ∧
      n.replies [.hasPrev, .next, .prev, .prev] (n.after [.goTo 2 true] b) =
        [.ok (.flag false), .ok (.element (some 3)), .ok (.element (some 1)), .ok (.element none)] := by
  intro p n b
  have h := Producer.Denotes.zigZag (.snapshot (.sorted [1, 3, 5]) fun _ => by decide)
    (.snapshot (.sorted [1, 3, 5]) fun _ => by decide)
  have hmissed : (n.goTo 2 true).Gives b .absent (n.after [.goTo 2 true] b) := ⟨rfl, rfl⟩
  refine ⟨rfl, ?_⟩
  exact ((h.missed_goTo_iff rfl hmissed).1.mpr ⟨rfl, nofun⟩ _ (by decide)).trans rfl

/-- Of three items, those before the second one are forgotten where the cursor stands on it, and all of them where it
stands after the last one. -/
theorem Producer.Denotes.missed_goTo_forgets :
    let n := Buffered.navigation (Intersection.zigZag SnapshotCursor.navigation SnapshotCursor.navigation)
    let s := Buffered.start (SnapshotCursor.start (.sorted [1, 3, 5]), SnapshotCursor.start (.sorted [1, 3, 5]))
    let b := n.after [.next, .next] s
    let e := n.after [.afterLast] s
    (n.replies [.goTo 4 true] b = [.ok (.landed .absent)] ∧
      n.replies [.hasPrev, .prev] b = [.ok (.flag true), .ok (.element (some 1))] ∧
      n.replies [.hasPrev, .prev] (n.after [.goTo 4 true] b) = [.ok (.flag false), .ok (.element none)]) ∧
    (n.replies [.goTo 9 false] e = [.ok (.landed .absent)] ∧
      n.replies [.hasPrev, .prev] e = [.ok (.flag true), .ok (.element (some 5))] ∧
      n.replies [.hasPrev, .prev, .next] (n.after [.goTo 9 false] e) =
        [.ok (.flag false), .ok (.element none), .ok (.element none)]) :=
  ⟨⟨rfl, rfl, rfl⟩, ⟨rfl, rfl, rfl⟩⟩

end HyperQuery
