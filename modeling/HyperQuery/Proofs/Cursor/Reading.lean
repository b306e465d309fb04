import HyperQuery.Proofs.Cursor.Blueprint
import HyperQuery.Proofs.Cursor.Tracking

/-!
# What cursors read that may fail

A cursor that tracks one that yields a list *reads* that list (`Navigation.Reads`): draining it answers the list or fails
with a permitted error (`Navigation.Reads.drain`), and no number of steps forward fails with any other error
(`Navigation.Reads.replies_next`). A blueprint reads items if its cursor does, provided that it can be opened
(`Blueprint.Reads`), and unions, filters and mappings of blueprints read what their parts call for.
-/

namespace HyperQuery

variable {σ τ : Type} {E : QueryError → Prop}

/-! ### Reading out -/

section ReadingOut

variable {n : Navigation σ} {m : Navigation τ} {V : σ → τ → Prop} {s s' : σ} {t : τ}

theorem gives_readOut_error {fuel : Nat} {e : QueryError} (h : n.next.Fails s e s') :
    (n.readOut (fuel + 1)).Gives s ([], some e) s' := by
  obtain ⟨h1, h2⟩ := h
  rcases hn : n.next s with ⟨⟨answer, spent⟩, t'⟩
  rw [hn] at h1 h2
  change answer = .error e at h1
  change t' = s' at h2
  subst h1 h2
  unfold Move.Gives Navigation.readOut
  rw [hn]
  exact ⟨rfl, rfl⟩

/-- Reading out gives what the other cursor gives, or ends with a permitted error. -/
private theorem readOut_of_tracks (h : n.forward.Tracks E m.forward V) (fuel : Nat) (hV : V s t) :
    ∃ xs error s', (n.readOut fuel).Gives s (xs, error) s' ∧
      ((error = none ∧ ∃ t', (m.readOut fuel).Gives t (xs, none) t') ∨ ∃ e, error = some e ∧ E e) := by
  induction fuel generalizing s t with
  | zero => exact ⟨[], none, s, .pure, .inl ⟨rfl, t, .pure⟩⟩
  | succ fuel ih =>
    cases h.pull hV with
    | @answers found s' t' hnext hnext' hV =>
      cases found with
      | none =>
        exact ⟨[], none, s', Producer.Yields.gives_readOut_nil hnext,
          .inl ⟨rfl, t', Producer.Yields.gives_readOut_nil hnext'⟩⟩
      | some x =>
        obtain ⟨xs, error, s', hrest, hend⟩ := ih hV
        refine ⟨x :: xs, error, s', Producer.Yields.gives_readOut_cons hnext hrest, hend.imp_left ?_⟩
        rintro ⟨hnone, t', hrest'⟩
        exact ⟨hnone, t', Producer.Yields.gives_readOut_cons hnext' hrest'⟩
    | @fails e s' t' hnext he _ => exact ⟨[], some e, s', gives_readOut_error hnext, .inr ⟨e, rfl, he⟩⟩

end ReadingOut

/-! ### Cursors that read a list -/

/-- From the state on the cursor reads the items, unless it fails with a permitted error: it tracks a cursor that yields
them. -/
def Navigation.Reads (n : Navigation σ) (E : QueryError → Prop) (s : σ) (items : List AtomId) (ordered : Bool) : Prop :=
  ∃ (ρ : Type) (m : Navigation ρ) (V : σ → ρ → Prop) (R : List AtomId → ρ → Prop) (t : ρ) (seekable : Bool),
    n.forward.Tracks E m.forward V ∧ V s t ∧ m.forward.Yields items ordered seekable R ∧ R items t

/-- A cursor that yields items reads them. -/
theorem Producer.Yields.reads {n : Navigation σ} {R : List AtomId → σ → Prop} {items : List AtomId}
    {ordered seekable : Bool} {s : σ} (h : n.forward.Yields items ordered seekable R) (hR : R items s) :
    n.Reads E s items ordered := by
  refine ⟨σ, n, fun s t => s = t ∧ ∃ rest, R rest s, R, s, seekable, ⟨?_, ?_, ?_⟩, ⟨rfl, items, hR⟩, h, hR⟩
  · rintro s _ ⟨rfl, rest, hR⟩
    obtain ⟨t, rest', hnext, hR', -⟩ := h.pull hR
    exact .answers hnext hnext ⟨rfl, rest', hR'⟩
  · rintro s _ ⟨rfl, -⟩
    rfl
  · rintro s _ ⟨rfl, -⟩
    rfl

namespace Navigation.Reads

variable {n : Navigation σ} {l : Navigation τ} {items as bs : List AtomId} {ordered ordered' : Bool} {s : σ} {t : τ}

private theorem remaining (h : n.Reads E s items ordered) :
    ∃ xs error s', n.remaining.Gives s (xs, error) s' ∧ ((error = none ∧ xs = items) ∨ ∃ e, error = some e ∧ E e) := by
  obtain ⟨ρ, m, V, R, t, seekable, htracks, hV, hm, hR⟩ := h
  obtain ⟨xs, error, s', hread, hend⟩ := readOut_of_tracks htracks (n.capacity s + 1) hV
  refine ⟨xs, error, s', Move.Gives.read.bind hread, hend.imp_left ?_⟩
  rintro ⟨hnone, t', hread'⟩
  have hcapacity : n.capacity s = m.capacity t := htracks.capacity hV
  obtain ⟨t'', hitems⟩ := hm.readOut hR (Nat.lt_succ_of_le (hm.length_le hR))
  rw [hcapacity] at hread'
  exact ⟨hnone, (Prod.ext_iff.mp (hread'.unique hitems).1).1⟩

/-- Draining the cursor answers the items or fails with a permitted error. -/
theorem drain (h : n.Reads E s items ordered) :
    (n.drain s).1.answer = .ok items ∨ ∃ e, (n.drain s).1.answer = .error e ∧ E e := by
  obtain ⟨xs, error, s', hremaining, ⟨rfl, rfl⟩ | ⟨e, rfl, he⟩⟩ := h.remaining
  · have hdrain : n.drain.Gives s xs s' := hremaining.bind .pure
    exact .inl hdrain.1
  · have hfail : (Move.fail e : Move σ (List AtomId)).Fails s' e s' := ⟨rfl, rfl⟩
    have hdrain : n.drain.Fails s e s' := hremaining.fails_bind hfail
    exact .inr ⟨e, hdrain.1, he⟩

theorem collect (h : n.Reads E s items ordered) :
    (n.collect s).1.answer = .ok items ∨ ∃ e, (n.collect s).1.answer = .error e ∧ E e := by
  obtain ⟨xs, error, s', hremaining, ⟨rfl, rfl⟩ | ⟨e, rfl, he⟩⟩ := h.remaining
  · have hcollect : n.collect.Gives s xs (n.close s') := hremaining.bind (Move.Gives.update.bind .pure)
    exact .inl hcollect.1
  · have hfail : (Move.fail e : Move σ (List AtomId)).Fails (n.close s') e (n.close s') := ⟨rfl, rfl⟩
    have hcollect : n.collect.Fails s e (n.close s') := hremaining.fails_bind (Move.Gives.update.fails_bind hfail)
    exact .inr ⟨e, hcollect.1, he⟩

/-- However often the cursor is moved forward, also after errors, it fails with permitted errors only. -/
theorem replies_next (h : n.Reads E s items ordered) (k : Nat) {e : QueryError}
    (he : .error e ∈ n.replies (.replicate k .next) s) : E e := by
  obtain ⟨ρ, m, V, R, t, seekable, htracks, hV, -, -⟩ := h
  induction k generalizing s t with
  | zero => simp [Navigation.replies] at he
  | succ k ih =>
    have hstep : Move.Tracks E V (Request.next.perform n) (Request.next.perform m) s t :=
      Move.Tracks.bind (htracks.pull hV) fun _ _ _ hV => .pure hV
    rw [List.replicate_succ, Navigation.replies, List.mem_cons] at he
    cases hstep with
    | answers hgives _ hV =>
      rcases he with he | he
      · rw [hgives.1] at he
        simp at he
      · rw [hgives.2] at he
        exact ih he _ hV
    | fails hfails hE hV =>
      rcases he with he | he
      · rw [hfails.1] at he
        cases he
        exact hE
      · rw [hfails.2] at he
        exact ih he _ hV

theorem isOrdered (h : n.Reads E s items ordered) : n.isOrdered s = ordered := by
  obtain ⟨ρ, m, V, R, t, seekable, htracks, hV, hm, hR⟩ := h
  exact (htracks.isOrdered hV).trans (hm.isOrdered hR)

theorem ascending (h : n.Reads E s items true) : items.Pairwise (· < ·) := by
  obtain ⟨ρ, m, V, R, t, seekable, -, -, hm, -⟩ := h
  exact hm.ascending rfl

theorem union (hn : n.Reads E s as ordered) (hl : l.Reads E t bs ordered') :
    (Buffered.navigation (UnionState.producer n l)).Reads E (.start (UnionState.start n l s t))
      (UnionState.listed (ordered && ordered') as bs) (ordered && ordered') := by
  obtain ⟨ρ, m, V, R, s', seekable, hn, hV, hm, hR⟩ := hn
  obtain ⟨ρ', m', W, S, t', seekable', hl, hW, hm', hS⟩ := hl
  obtain ⟨Q, hunion, hQ⟩ := UnionState.exists_yields hm hm' hR hS
  have hstart := UnionState.alike_start hn hl hV hW
  exact ⟨_, _, _, _, .start (UnionState.start m m' s' t'), _, Buffered.tracks (UnionState.tracks hn hl),
    Buffered.alike_start hstart, Buffered.yields hunion, Buffered.rests_start hQ⟩

theorem filter {tests : Tester τ} {property : AtomId → Bool} {I : τ → Prop} (hn : n.Reads E s items ordered)
    (htests : tests.Attempts E property I) (ht : I t) :
    (Buffered.navigation (Filter.producer n tests)).Reads E (.start (s, t)) (items.filter property) ordered := by
  obtain ⟨ρ, m, V, R, s', seekable, hn, hV, hm, hR⟩ := hn
  have hstart : Filter.Alike V I (s, t) (s', ()) := ⟨hV, ht⟩
  exact ⟨_, _, _, _, .start (s', ()), _, Buffered.tracks (Filter.tracks hn htests), Buffered.alike_start hstart,
    Buffered.yields (Filter.yields hm Filter.decides_having), Buffered.rests_start (.mk hR trivial)⟩

theorem map {image : AtomId → Metered (Option AtomId)} {f : AtomId → Option AtomId} (hn : n.Reads E s items ordered)
    (hok : ∀ x y, (image x).answer = .ok y → y = f x) (herror : ∀ x e, (image x).answer = .error e → E e) :
    (Buffered.navigation (MapEach.producer n image)).Reads E (.start s) (items.filterMap f) false := by
  obtain ⟨ρ, m, V, R, s', seekable, hn, hV, hm, hR⟩ := hn
  exact ⟨_, _, _, _, .start s', _, Buffered.tracks (MapEach.tracks hn hok herror), Buffered.alike_start hV,
    Buffered.yields (MapEach.yields hm fun _ _ => Metered.answer_pure _), Buffered.rests_start (.mk hR)⟩

end Navigation.Reads

/-! ### Tests by collecting -/

namespace Tester

variable {a : Access σ} {items : List AtomId}

private theorem answer_gathered (hoversized : ∀ size limit, E (.oversizedSet size limit)) (limit : Option Nat)
    (hstart : ∀ e, a.start.answer = .error e → E e)
    (hcollect : ∀ s, a.start.answer = .ok s → (a.collect s).1.answer = .ok items ∨
      ∃ e, (a.collect s).1.answer = .error e ∧ E e) :
    (gathered a limit).answer = .ok items ∨ ∃ e, (gathered a limit).answer = .error e ∧ E e := by
  unfold gathered
  rcases hs : a.start.answer with e | s
  · exact .inr ⟨e, Metered.answer_bind_of_error hs, hstart e hs⟩
  · rw [Metered.answer_bind_of_ok hs]
    rcases hcollect s hs with hitems | ⟨e, herror, he⟩
    · rw [Metered.answer_bind_of_ok hitems]
      split
      · exact .inr ⟨_, rfl, hoversized _ _⟩
      · exact .inl rfl
    · exact .inr ⟨e, Metered.answer_bind_of_error herror, he⟩

theorem gives_prepare_none {make : Metered τ} {t : τ} (h : make.answer = .ok t) :
    (prepare make).Gives none () (some t) := by
  obtain ⟨answer, spent⟩ := make
  change answer = .ok t at h
  subst h
  exact ⟨rfl, rfl⟩

theorem fails_prepare_none {make : Metered τ} {e : QueryError} (h : make.answer = .error e) :
    (prepare make).Fails none e none := by
  obtain ⟨answer, spent⟩ := make
  change answer = .error e at h
  subst h
  exact ⟨rfl, rfl⟩

private theorem gives_contains (x : AtomId) :
    (counted (onPrepared false do return (← Move.read).contains x)).Gives (some items) (items.contains x) (some items) :=
  ⟨rfl, rfl⟩

/-- Collecting a cursor attempts to decide whether a handle is among the items, and the collected set may be limited in
size. -/
theorem attempts_gather (hoversized : ∀ size limit, E (.oversizedSet size limit)) (limit : Option Nat)
    (hstart : ∀ e, a.start.answer = .error e → E e)
    (hcollect : ∀ s, a.start.answer = .ok s → (a.collect s).1.answer = .ok items ∨
      ∃ e, (a.collect s).1.answer = .error e ∧ E e) :
    (gather a limit).Attempts E (fun x => items.contains x) (Prepared (· = items)) := by
  intro x s? hs?
  cases hs? with
  | notYet =>
    rcases answer_gathered hoversized limit hstart hcollect with hitems | ⟨e, herror, he⟩
    · exact .inl ⟨some items, (gives_prepare_none hitems).bind (gives_contains x), .ready rfl⟩
    · exact .inr ⟨e, none, (fails_prepare_none herror).bind, he, .notYet⟩
  | @ready ids hids =>
    subst hids
    have hprepared : (prepare (gathered a limit)).Gives (some ids) () (some ids) := ⟨rfl, rfl⟩
    exact .inl ⟨some ids, hprepared.bind (gives_contains x), .ready rfl⟩

end Tester

/-! ### Blueprints -/

variable {g : Graph}

/-- The image of an atom where it can be had. -/
def Mapping.image (g : Graph) (mapping : Mapping) (x : AtomId) : Option AtomId :=
  match mapping.apply g x with
  | .ok y => y
  | .error _ => none

theorem Mapping.eq_image {mapping : Mapping} {x : AtomId} {y : Option AtomId} (h : mapping.apply g x = .ok y) :
    y = mapping.image g x := by rw [image, h]

theorem Mapping.image_eq_some_iff {mapping : Mapping} {x y : AtomId} :
    mapping.image g x = some y ↔ mapping.apply g x = .ok (some y) := by
  unfold image
  rcases mapping.apply g x with e | y' <;> simp

/-- Opened on the graph, the cursor reads the items, unless opening or moving it fails with a permitted error. -/
structure Blueprint.Reads (g : Graph) (E : QueryError → Prop) (b : Blueprint) (items : List AtomId) (ordered : Bool) :
    Prop where
  opens : ∀ e, (b.access g).start.answer = .error e → E e
  reads : ∀ s, (b.access g).start.answer = .ok s → (b.access g).toNavigation.Reads E s items ordered

namespace Check

/-- Before the first candidate and after every one the tests attempt to decide the property. -/
def Attempt (g : Graph) (E : QueryError → Prop) (checks : List Check) (property : AtomId → Bool) : Prop :=
  ∃ I, (Check.testers g checks).Attempts E property I ∧ I (Check.initials checks)

variable {checks : List Check} {property : AtomId → Bool} {inner : Blueprint} {items : List AtomId} {ordered : Bool}

theorem attempt_nil : Attempt g E [] fun _ => true := ⟨_, Tester.attempts_always, trivial⟩

theorem Attempt.point {condition : Condition}
    (hcondition : ∀ x e, (condition.satisfies g x).answer = .error e → E e) (h : Attempt g E checks property) :
    Attempt g E (.point condition :: checks) fun x => Tester.passes (condition.satisfies g) x && property x := by
  obtain ⟨I, htests, hI⟩ := h
  exact ⟨_, (Tester.attempts_point hcondition).both htests, trivial, hI⟩

theorem Attempt.member (hinner : inner.Lists g items ordered true) (h : Attempt g E checks property) :
    Attempt g E (.member inner :: checks) fun x => items.contains x && property x := by
  obtain ⟨I, htests, hI⟩ := h
  obtain ⟨R, s, hs, hR, -, hprobes, -⟩ := hinner
  exact ⟨_, (Tester.attempts_member hs hR (hprobes rfl)).both htests, .notYet, hI⟩

theorem Attempt.gather (hoversized : ∀ size limit, E (.oversizedSet size limit)) (limit : Option Nat)
    (hinner : inner.Reads g E items ordered) (h : Attempt g E checks property) :
    Attempt g E (.gather inner limit :: checks) fun x => items.contains x && property x := by
  obtain ⟨I, htests, hI⟩ := h
  have hgather := Tester.attempts_gather hoversized limit hinner.opens fun s hs => (hinner.reads s hs).collect
  exact ⟨_, hgather.both htests, .notYet, hI⟩

end Check

namespace Blueprint

variable {b left right : Blueprint} {items as bs : List AtomId} {ordered ordered' seekable : Bool}

theorem Lists.reads (h : b.Lists g items ordered seekable) : b.Reads g E items ordered := by
  obtain ⟨R, s, hs, hR, hyields, -⟩ := h
  constructor
  · intro e he
    rw [hs] at he
    simp at he
  · intro s' hs'
    rw [hs] at hs'
    cases hs'
    exact hyields.reads hR

/-- A cursor that cannot be opened reads nothing. -/
theorem reads_of_error {e : QueryError} (h : (b.access g).start.answer = .error e) (he : E e) :
    b.Reads g E [] ordered := by
  constructor
  · intro e' he'
    rw [h] at he'
    cases he'
    exact he
  · intro s hs
    rw [h] at hs
    simp at hs

theorem Reads.union (hl : left.Reads g E as ordered) (hr : right.Reads g E bs ordered') :
    (Blueprint.union left right).Reads g E (UnionState.listed (ordered && ordered') as bs) (ordered && ordered') := by
  constructor
  · intro e he
    rcases Metered.answer_bind_eq_error_iff.mp he with he | ⟨s, -, he⟩
    · exact hl.opens e he
    · rcases Metered.answer_bind_eq_error_iff.mp he with he | ⟨t, -, he⟩
      · exact hr.opens e he
      · simp at he
  · intro u hu
    obtain ⟨s, hs, hu⟩ := Metered.answer_bind_eq_ok_iff.mp hu
    obtain ⟨t, ht, hu⟩ := Metered.answer_bind_eq_ok_iff.mp hu
    cases hu
    exact (hl.reads s hs).union (hr.reads t ht)

theorem Reads.filter {checks : List Check} {property : AtomId → Bool} (hbase : b.Reads g E items ordered)
    (hchecks : Check.Attempt g E checks property) :
    (Blueprint.filter b checks).Reads g E (items.filter property) ordered := by
  obtain ⟨I, htests, hI⟩ := hchecks
  constructor
  · intro e he
    rcases Metered.answer_bind_eq_error_iff.mp he with he | ⟨s, -, he⟩
    · exact hbase.opens e he
    · simp at he
  · intro u hu
    obtain ⟨s, hs, hu⟩ := Metered.answer_bind_eq_ok_iff.mp hu
    cases hu
    exact (hbase.reads s hs).filter htests hI

theorem Reads.map {mapping : Mapping} (hbase : b.Reads g E items ordered)
    (hmapping : ∀ x e, mapping.apply g x = .error e → E e) :
    (Blueprint.map b mapping).Reads g E (items.filterMap (mapping.image g)) false := by
  constructor
  · intro e he
    rcases Metered.answer_bind_eq_error_iff.mp he with he | ⟨s, -, he⟩
    · exact hbase.opens e he
    · simp at he
  · intro u hu
    obtain ⟨s, hs, hu⟩ := Metered.answer_bind_eq_ok_iff.mp hu
    cases hu
    exact (hbase.reads s hs).map (fun _ _ => Mapping.eq_image) hmapping

end Blueprint

end HyperQuery
