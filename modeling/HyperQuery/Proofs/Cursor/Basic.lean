import HyperQuery.Cursor.Basic
import HyperQuery.Proofs.AtomSet
import HyperQuery.Proofs.Metered

/-!
# What a cursor has to offer

A cursor that is only moved forward is a producer (`Navigation.forward`). A producer *yields* a list of handles
(`Producer.Yields`) if its states can be labelled with what is still to come: `R rest s` says that in the state `s` the
handles of `rest` are to come. Pulling draws the first of them (`Draws`), rewinding brings all of them back, and, if
the producer can be sought, seeking a key draws the first handle of the list that is not below the key.

Nothing is said about a producer that had nothing left, except that it can be rewound and sought again: whoever pulls
stops at the first `none`. Draining a cursor that yields a list answers the list (`Producer.Yields.drain`).
-/

namespace HyperQuery

variable {σ : Type}

/-- The cursor seen as a producer: the moves that do not go backward. -/
def Navigation.forward (n : Navigation σ) : Producer σ where
  pull := n.next
  seek := n.seekFrom
  rewind := n.beforeFirst
  close := n.close
  isOrdered := n.isOrdered
  isRandomAccess := n.isRandomAccess
  capacity := n.capacity

/-- The move answers the first of the items, and the rest of them is to come. If there are none, the move answers so,
and what is to come is left open. -/
def Draws (m : Move σ (Option AtomId)) (R : List AtomId → σ → Prop) (s : σ) (items : List AtomId) : Prop :=
  ∃ t rest, m.Gives s items.head? t ∧ R rest t ∧ (items ≠ [] → rest = items.tail)

variable {R : List AtomId → σ → Prop}

theorem draws_nil {m : Move σ (Option AtomId)} {s t : σ} {rest : List AtomId} (h : m.Gives s none t)
    (hR : R rest t) : Draws m R s [] := ⟨t, rest, h, hR, fun hne => absurd rfl hne⟩

theorem draws_cons {m : Move σ (Option AtomId)} {s t : σ} {x : AtomId} {rest : List AtomId}
    (h : m.Gives s (some x) t) (hR : R rest t) : Draws m R s (x :: rest) := ⟨t, rest, h, hR, fun _ => rfl⟩

theorem Draws.cases_cons {m : Move σ (Option AtomId)} {s : σ} {x : AtomId} {rest : List AtomId}
    (h : Draws m R s (x :: rest)) : ∃ t, m.Gives s (some x) t ∧ R rest t := by
  obtain ⟨t, rest', hm, hR, hrest⟩ := h
  have heq : rest' = rest := hrest (by simp)
  rw [heq] at hR
  exact ⟨t, hm, hR⟩

theorem Draws.cases_nil {m : Move σ (Option AtomId)} {s : σ} (h : Draws m R s []) :
    ∃ t rest, m.Gives s none t ∧ R rest t := by
  obtain ⟨t, rest, hm, hR, -⟩ := h
  exact ⟨t, rest, hm, hR⟩

theorem Draws.imp {m : Move σ (Option AtomId)} {S : List AtomId → σ → Prop} {s : σ} {items : List AtomId}
    (h : Draws m R s items) (hS : ∀ {rest t}, R rest t → S rest t) : Draws m S s items := by
  obtain ⟨t, rest, hm, hR, hrest⟩ := h
  exact ⟨t, rest, hm, hS hR, hrest⟩

/-- The producer yields the items one after the other, where `R rest s` says that the handles of `rest` are to come in
the state `s`. -/
structure Producer.Yields (p : Producer σ) (items : List AtomId) (ordered seekable : Bool)
    (R : List AtomId → σ → Prop) : Prop where
  pull : ∀ {rest s}, R rest s → Draws p.pull R s rest
  rewind : ∀ {rest s}, R rest s → ∃ t, p.rewind.Gives s () t ∧ R items t
  seek : ordered = true → seekable = true → ∀ {rest s} (key), R rest s →
    Draws (p.seek key) R s (AtomSet.upFrom key items)
  suffix : ∀ {rest s}, R rest s → rest <:+ items
  capacity : ∀ {rest s}, R rest s → items.length ≤ p.capacity s
  isOrdered : ∀ {rest s}, R rest s → p.isOrdered s = ordered
  isRandomAccess : ∀ {rest s}, R rest s → p.isRandomAccess s = seekable
  ascending : ordered = true → items.Pairwise (· < ·)

/-- Seeking exact handles in a cursor finds the items, and does not fail. -/
def Navigation.Probes (n : Navigation σ) (items : List AtomId) (R : List AtomId → σ → Prop) : Prop :=
  ∀ {rest s} (key), R rest s → ∃ t rest' landing, (n.goTo key true).Gives s landing t ∧ R rest' t ∧
    (landing = .found ↔ key ∈ items)

theorem Navigation.gives_seekFrom_absent {n : Navigation σ} {key : AtomId} {s t : σ}
    (h : (n.goTo key false).Gives s .absent t) : (n.seekFrom key).Gives s none t := h.bind .pure

theorem Navigation.gives_seekFrom {n : Navigation σ} {key x : AtomId} {s t : σ} (landing : Landing)
    (h : (n.goTo key false).Gives s landing t) (hlanding : landing ≠ .absent) (hx : n.current t = .ok x) :
    (n.seekFrom key).Gives s (some x) t := by
  refine h.bind ?_
  cases landing with
  | absent => exact absurd rfl hlanding
  | found | closest => exact Move.Gives.read.bind (Move.Gives.bind (.lift hx) .pure)

namespace Producer.Yields

variable {n : Navigation σ} {items : List AtomId} {ordered seekable : Bool}

theorem length_le {p : Producer σ} (h : p.Yields items ordered seekable R) {rest : List AtomId} {s : σ}
    (hR : R rest s) : rest.length ≤ p.capacity s := Nat.le_trans (h.suffix hR).length_le (h.capacity hR)

/-! ### Reading out -/

theorem gives_readOut_cons {fuel : Nat} {s t u : σ} {x : AtomId} {xs : List AtomId} {e : Option QueryError}
    (h : n.next.Gives s (some x) t) (hrest : (n.readOut fuel).Gives t (xs, e) u) :
    (n.readOut (fuel + 1)).Gives s (x :: xs, e) u := by
  obtain ⟨h1, h2⟩ := h
  obtain ⟨h3, h4⟩ := hrest
  rcases hn : n.next s with ⟨⟨answer, spent⟩, t'⟩
  rw [hn] at h1 h2
  change answer = .ok (some x) at h1
  change t' = t at h2
  subst h1 h2
  unfold Move.Gives Navigation.readOut
  rw [hn]
  refine ⟨?_, h4⟩
  show Except.map _ (n.readOut fuel t').1.answer = _
  rw [h3]
  rfl

theorem gives_readOut_nil {fuel : Nat} {s t : σ} (h : n.next.Gives s none t) :
    (n.readOut (fuel + 1)).Gives s ([], none) t := by
  obtain ⟨h1, h2⟩ := h
  rcases hn : n.next s with ⟨⟨answer, spent⟩, t'⟩
  rw [hn] at h1 h2
  change answer = .ok none at h1
  change t' = t at h2
  subst h1 h2
  unfold Move.Gives Navigation.readOut
  rw [hn]
  exact ⟨rfl, rfl⟩

theorem readOut (h : n.forward.Yields items ordered seekable R) {fuel : Nat} {rest : List AtomId} {s : σ}
    (hR : R rest s) (hfuel : rest.length < fuel) : ∃ t, (n.readOut fuel).Gives s (rest, none) t := by
  induction fuel generalizing rest s with
  | zero => omega
  | succ fuel ih =>
    cases rest with
    | nil =>
      obtain ⟨t, _, hnext, -⟩ := (h.pull hR).cases_nil
      exact ⟨t, gives_readOut_nil hnext⟩
    | cons x rest =>
      obtain ⟨t, hnext, hR⟩ := (h.pull hR).cases_cons
      obtain ⟨u, hu⟩ := ih hR (by simpa using hfuel)
      exact ⟨u, gives_readOut_cons hnext hu⟩

theorem remaining (h : n.forward.Yields items ordered seekable R) {rest : List AtomId} {s : σ} (hR : R rest s) :
    ∃ t, n.remaining.Gives s (rest, none) t := by
  obtain ⟨t, ht⟩ := h.readOut hR (Nat.lt_succ_of_le (h.length_le hR))
  exact ⟨t, Move.Gives.read.bind ht⟩

/-- Draining answers what is to come. -/
theorem drain (h : n.forward.Yields items ordered seekable R) {rest : List AtomId} {s : σ} (hR : R rest s) :
    ∃ t, n.drain.Gives s rest t := by
  obtain ⟨t, ht⟩ := h.remaining hR
  exact ⟨t, ht.bind .pure⟩

/-- Collecting answers what is to come. -/
theorem collect (h : n.forward.Yields items ordered seekable R) {rest : List AtomId} {s : σ} (hR : R rest s) :
    ∃ t, n.collect.Gives s rest t := by
  obtain ⟨t, ht⟩ := h.remaining hR
  exact ⟨_, ht.bind (Move.Gives.update.bind .pure)⟩

end Producer.Yields

end HyperQuery
