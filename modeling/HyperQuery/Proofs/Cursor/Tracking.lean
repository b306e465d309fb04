import HyperQuery.Proofs.Cursor.Buffered
import HyperQuery.Proofs.Cursor.Filter
import HyperQuery.Proofs.Cursor.Union

/-!
# Cursors that may fail on the way

Tests and mappings can fail, and with them the cursors that use them. Such a producer *tracks* one that does not fail
(`Producer.Tracks`): pulling answers what the other one answers, or fails with a permitted error, and goes on from a
related state either way. Buffers, unions, filters and mappings track what they become when their tests and mappings
are replaced by ones that always answer (`Buffered.tracks`, `UnionState.tracks`, `Filter.tracks`, `MapEach.tracks`).
-/

namespace HyperQuery

variable {σ τ σ' τ' : Type} {E : QueryError → Prop}

/-- In related states the producer can be pulled as the other one, up to permitted errors. -/
structure Producer.Tracks (p : Producer σ) (E : QueryError → Prop) (q : Producer τ) (V : σ → τ → Prop) : Prop where
  pull : ∀ {s t}, V s t → Move.Tracks E V p.pull q.pull s t
  capacity : ∀ {s t}, V s t → p.capacity s = q.capacity t
  isOrdered : ∀ {s t}, V s t → p.isOrdered s = q.isOrdered t

/-! ### Buffers -/

namespace Buffered

variable {p : Producer σ} {q : Producer τ} {V : σ → τ → Prop} {b : Buffered σ} {c : Buffered τ}

/-- Open buffers that have seen the same and stand at the same place, over related states of their producers. -/
inductive Alike (V : σ → τ → Prop) : Buffered σ → Buffered τ → Prop
  | mk {s : σ} {t : τ} (h : V s t) (seen : List AtomId) (position : Position) (exhausted : Bool) :
    Alike V ⟨s, seen, position, exhausted, false⟩ ⟨t, seen, position, exhausted, false⟩

theorem alike_start {s : σ} {t : τ} (h : V s t) : Alike V (start s) (start t) := .mk h [] .beforeFirst false

private theorem tracks_pullOne (hp : p.Tracks E q V) (h : Alike V b c) :
    Move.Tracks E (Alike V) (pullOne p) (pullOne q) b c := by
  cases h with
  | mk h seen position exhausted =>
    have hpull : Move.Tracks E (Alike V) (onSource p.pull) (onSource q.pull) ⟨_, seen, position, exhausted, false⟩
        ⟨_, seen, position, exhausted, false⟩ := (hp.pull h).onPart fun h => .mk h seen position exhausted
    refine hpull.bind fun x b' c' h => ?_
    cases h with
    | mk h seen position exhausted =>
      cases x with
      | some x => exact Move.Tracks.bind (.update (.mk h _ _ _)) fun _ _ _ h => .pure h
      | none => exact Move.Tracks.bind (.update (.mk h _ _ _)) fun _ _ _ h => .pure h

private theorem tracks_fill (hp : p.Tracks E q V) (h : Alike V b c) (i : Nat) :
    Move.Tracks E (Alike V) (fill p i) (fill q i) b c := by
  refine .read ?_
  cases h with
  | mk h seen position exhausted =>
    by_cases hseen : i < seen.length
    · simp only [hseen, if_true]
      exact .pure (.mk h _ _ _)
    · cases exhausted with
      | true =>
        simp only [hseen, if_false, if_true]
        exact .pure (.mk h _ _ _)
      | false =>
        simp only [hseen, if_false, Bool.false_eq_true]
        exact tracks_pullOne hp (.mk h _ _ _)

private theorem tracks_next (hp : p.Tracks E q V) (h : Alike V b c) :
    Move.Tracks E (Alike V) (next p) (next q) b c := by
  have hopen : Move.Tracks E (Alike V) ensureOpen ensureOpen b c := by
    cases h with
    | mk h seen position exhausted => exact .answers ⟨rfl, rfl⟩ ⟨rfl, rfl⟩ (.mk h _ _ _)
  refine hopen.bind fun _ b c h => .read ?_
  have hposition : b.position = c.position := by
    cases h with
    | mk _ _ _ _ => rfl
  rw [hposition]
  rcases c.position.following? with _ | i
  · exact .pure h
  · refine (tracks_fill hp h i).bind fun reached b c h => ?_
    cases h with
    | mk h seen position exhausted =>
      cases reached with
      | true =>
        refine Move.Tracks.bind (.update (.mk h seen (.on i) exhausted)) fun _ b c h => .read ?_
        cases h with
        | mk h _ _ _ => exact .pure (.mk h _ _ _)
      | false => exact Move.Tracks.bind (.update (.mk h seen .afterLast exhausted)) fun _ _ _ h => .pure h

theorem tracks (hp : p.Tracks E q V) : (navigation p).forward.Tracks E (navigation q).forward (Alike V) where
  pull h := tracks_next hp h
  capacity h := by
    cases h with
    | mk h seen _ _ => exact congrArg (seen.length + ·) (hp.capacity h)
  isOrdered h := by
    cases h with
    | mk h _ _ _ => exact hp.isOrdered h

end Buffered

/-! ### Unions -/

namespace UnionState

variable {l : Navigation σ} {r : Navigation τ} {l' : Navigation σ'} {r' : Navigation τ'} {V : σ → σ' → Prop}
  {W : τ → τ' → Prop} {u : UnionState σ τ} {v : UnionState σ' τ'}

/-- Unions that have been read equally far, of related sides. -/
inductive Alike (V : σ → σ' → Prop) (W : τ → τ' → Prop) : UnionState σ τ → UnionState σ' τ' → Prop
  | mk {s : σ} {t : τ} {s' : σ'} {t' : τ'} (hl : V s s') (hr : W t t') (mode : UnionMode) :
    Alike V W ⟨s, t, mode⟩ ⟨s', t', mode⟩

private theorem tracks_setMode (h : Alike V W u v) (mode : UnionMode) :
    Move.Tracks E (Alike V W) (setMode mode) (setMode mode) u v := by
  cases h with
  | mk hl hr _ => exact .update (.mk hl hr mode)

/-- Sets a mode and answers. -/
private theorem tracks_setMode_pure {α : Type} (h : Alike V W u v) (mode : UnionMode) (x : α) :
    Move.Tracks E (Alike V W) (setMode mode >>= fun _ => pure x) (setMode mode >>= fun _ => pure x) u v :=
  (tracks_setMode h mode).bind fun _ _ _ h => .pure h

section Sides

variable (hl : l.forward.Tracks E l'.forward V) (hr : r.forward.Tracks E r'.forward W)

include hl in
private theorem tracks_onLeft (h : Alike V W u v) :
    Move.Tracks E (Alike V W) (onLeft l.next) (onLeft l'.next) u v := by
  cases h with
  | mk hs ht mode => exact (hl.pull hs).onPart fun hs => .mk hs ht mode

include hr in
private theorem tracks_onRight (h : Alike V W u v) :
    Move.Tracks E (Alike V W) (onRight r.next) (onRight r'.next) u v := by
  cases h with
  | mk hs ht mode => exact (hr.pull ht).onPart fun ht => .mk hs ht mode

include hl hr

private theorem tracks_prime (h : Alike V W u v) (x y : Option AtomId) (primed : Bool) :
    Move.Tracks E (Alike V W) (prime l r x y primed) (prime l' r' x y primed) u v := by
  cases primed with
  | true => exact .pure h
  | false =>
    refine (tracks_onLeft hl h).bind fun x _ _ h => ?_
    refine (tracks_setMode h _).bind fun _ _ _ h => ?_
    exact (tracks_onRight hr h).bind fun y _ _ h => tracks_setMode_pure h _ _

private theorem tracks_pullMerged (h : Alike V W u v) (x y : Option AtomId) :
    Move.Tracks E (Alike V W) (pullMerged l r x y) (pullMerged l' r' x y) u v := by
  have hleft : ∀ x y, Move.Tracks E (Alike V W) (takeLeft l x y) (takeLeft l' x y) u v := fun _ _ =>
    (tracks_onLeft hl h).bind fun _ _ _ h => tracks_setMode_pure h _ _
  have hright : ∀ x y, Move.Tracks E (Alike V W) (takeRight r x y) (takeRight r' x y) u v := fun _ _ =>
    (tracks_onRight hr h).bind fun _ _ _ h => tracks_setMode_pure h _ _
  have hboth : ∀ x, Move.Tracks E (Alike V W) (takeBoth l r x) (takeBoth l' r' x) u v := fun _ => by
    refine (tracks_onLeft hl h).bind fun next _ _ h => (tracks_setMode h _).bind fun _ _ _ h => ?_
    exact (tracks_onRight hr h).bind fun _ _ _ h => tracks_setMode_pure h _ _
  rcases x with _ | x <;> rcases y with _ | y
  · exact .pure h
  · exact hright none y
  · exact hleft x none
  · unfold pullMerged
    rcases hcompare : compare x y with _ | _ | _ <;> simp only [hcompare]
    · exact hleft x (some y)
    · exact hboth x
    · exact hright (some x) y

private theorem tracks_pullNew (fuel : Nat) (h : Alike V W u v) (yielded : List AtomId) (onRightSide : Bool) :
    Move.Tracks E (Alike V W) (pullNew l r fuel yielded onRightSide) (pullNew l' r' fuel yielded onRightSide) u v := by
  induction fuel generalizing u v yielded onRightSide with
  | zero => exact .pure h
  | succ fuel ih =>
    -- an element that was yielded before is skipped on either side
    have hsome : ∀ {u v}, Alike V W u v → ∀ x, Move.Tracks E (Alike V W)
        (if yielded.contains x then pullNew l r fuel yielded onRightSide
          else setMode (.concat (x :: yielded) onRightSide) >>= fun _ => pure (some x))
        (if yielded.contains x then pullNew l' r' fuel yielded onRightSide
          else setMode (.concat (x :: yielded) onRightSide) >>= fun _ => pure (some x)) u v := by
      intro u v h x
      split
      · exact ih h yielded onRightSide
      · exact tracks_setMode_pure h _ _
    cases onRightSide with
    | true =>
      refine (tracks_onRight hr h).bind fun found _ _ h => ?_
      cases found with
      | some x => exact hsome h x
      | none => exact .pure h
    | false =>
      refine (tracks_onLeft hl h).bind fun found _ _ h => ?_
      cases found with
      | some x => exact hsome h x
      | none => exact (tracks_setMode h _).bind fun _ _ _ h => ih h yielded true

private theorem capacity_eq (h : Alike V W u v) : capacity l r u = capacity l' r' v := by
  cases h with
  | mk hs ht _ => exact congrArg (· + 2) (congr (congrArg (· + ·) (hl.capacity hs)) (hr.capacity ht))

theorem tracks : (producer l r).Tracks E (producer l' r') (Alike V W) where
  pull {u v} h := by
    have hmode : u.mode = v.mode := by
      cases h with
      | mk _ _ _ => rfl
    refine .read ?_
    rw [hmode, capacity_eq hl hr h]
    cases v.mode with
    | merge x y primed =>
      exact (tracks_prime hl hr h x y primed).bind fun heads _ _ h => tracks_pullMerged hl hr h heads.1 heads.2
    | concat yielded onRightSide => exact tracks_pullNew hl hr _ h yielded onRightSide
  capacity := capacity_eq hl hr
  isOrdered h := by
    cases h with
    | mk _ _ mode => rfl

theorem alike_start {s : σ} {t : τ} {s' : σ'} {t' : τ'} (hs : V s s') (ht : W t t') :
    Alike V W (start l r s t) (start l' r' s' t') := by
  have hordered : l.isOrdered s = l'.isOrdered s' := hl.isOrdered hs
  have hordered' : r.isOrdered t = r'.isOrdered t' := hr.isOrdered ht
  unfold start
  rw [hordered, hordered']
  exact .mk hs ht _

end Sides

end UnionState

/-! ### Filters -/

namespace Tester

/-- In the states that satisfy `I` a test answers whether the handle has the property, or fails with a permitted error,
and stays in such a state. -/
def Attempts (tests : Tester τ) (E : QueryError → Prop) (property : AtomId → Bool) (I : τ → Prop) : Prop :=
  ∀ (x) {t}, I t → (∃ t', (tests.test x).Gives t (property x) t' ∧ I t') ∨
    ∃ e t', (tests.test x).Fails t e t' ∧ E e ∧ I t'

variable {property : AtomId → Bool}

theorem attempts_always : always.Attempts E (fun _ => true) fun _ => True := fun _ _ _ => .inl ⟨(), .pure, trivial⟩

/-- Probing a cursor does not fail. -/
theorem attempts_member {a : Access σ} {items rest : List AtomId} {R : List AtomId → σ → Prop} {s : σ}
    (hstart : a.start.answer = .ok s) (hs : R rest s) (h : a.toNavigation.Probes items R) :
    (member a).Attempts E (fun x => items.contains x) (Prepared fun s => ∃ rest, R rest s) := by
  intro x s? hs?
  have hx : (· = x) x := rfl
  exact .inl (decides_member hstart hs h hx hs?)

theorem Attempts.both {a : Tester σ} {b : Tester τ} {p q : AtomId → Bool} {I : σ → Prop} {J : τ → Prop}
    (ha : a.Attempts E p I) (hb : b.Attempts E q J) :
    (a.both b).Attempts E (fun x => p x && q x) fun s => I s.1 ∧ J s.2 := by
  rintro x ⟨s, t⟩ ⟨hs, ht⟩
  rcases ha x hs with ⟨s', htest, hs'⟩ | ⟨e, s', htest, he, hs'⟩
  · cases hp : p x with
    | true =>
      rw [hp] at htest
      rcases hb x ht with ⟨t', htest', ht'⟩ | ⟨e, t', htest', he, ht'⟩
      · refine .inl ⟨(s', t'), htest.onFst.bind ?_, hs', ht'⟩
        simp only [hp, Bool.true_and, if_true]
        exact htest'.onSnd
      · refine .inr ⟨e, (s', t'), htest.onFst.fails_bind ?_, he, hs', ht'⟩
        simp only [if_true]
        exact htest'.onSnd
    | false =>
      rw [hp] at htest
      refine .inl ⟨(s', t), htest.onFst.bind ?_, hs', ht⟩
      simp only [hp, Bool.false_and]
      exact .pure
  · exact .inr ⟨e, (s', t), htest.onFst.bind, he, hs', ht⟩

/-- The handles that a test by evaluation lets through. -/
def passes (test : AtomId → Metered Bool) (x : AtomId) : Bool :=
  match (test x).answer with
  | .ok b => b
  | .error _ => false

theorem passes_iff {test : AtomId → Metered Bool} {x : AtomId} :
    passes test x = true ↔ (test x).answer = .ok true := by
  unfold passes
  rcases (test x).answer with e | b <;> simp

theorem attempts_point {test : AtomId → Metered Bool} (h : ∀ x e, (test x).answer = .error e → E e) :
    (point test).Attempts E (passes test) fun _ => True := by
  intro x _ _
  rcases htest : (test x).answer with e | b
  · exact .inr ⟨e, (), Move.Fails.bind (.lift htest), h x e htest, trivial⟩
  · have hpasses : (test x).answer = .ok (passes test x) := by rw [passes, htest]
    exact .inl (decides_point (fun y (hy : y = x) => hy ▸ hpasses) rfl trivial)

end Tester

namespace Filter

variable {base : Navigation σ} {base' : Navigation σ'} {V : σ → σ' → Prop} {tests : Tester τ}
  {property : AtomId → Bool} {I : τ → Prop}

/-- A filter over related bases, in a state in which its tests can be made. -/
def Alike (V : σ → σ' → Prop) (I : τ → Prop) (u : σ × τ) (v : σ' × Unit) : Prop := V u.1 v.1 ∧ I u.2

/-- The test that a handle has the property. -/
def having (property : AtomId → Bool) : Tester Unit := .point fun x => pure (property x)

private theorem gives_having (x : AtomId) : ((having property).test x).Gives () (property x) () := ⟨rfl, rfl⟩

theorem decides_having {domain : AtomId → Prop} : (having property).Decides domain property fun _ => True :=
  fun _ _ => ⟨(), gives_having _, trivial⟩

private theorem tracks_test (htests : tests.Attempts E property I) {u : σ × τ} {v : σ' × Unit} (h : Alike V I u v)
    (x : AtomId) :
    Move.Tracks E (Alike V I) (Move.onSnd (tests.test x)) (Move.onSnd ((having property).test x)) u v := by
  obtain ⟨s, t⟩ := u
  obtain ⟨hs, ht⟩ := h
  rcases htests x ht with ⟨t', htest, ht'⟩ | ⟨e, t', htest, he, ht'⟩
  · exact .answers htest.onSnd (gives_having x).onSnd ⟨hs, ht'⟩
  · have hV : Alike V I (s, t') v := ⟨hs, ht'⟩
    exact .fails htest.onSnd he hV

private theorem tracks_pullPassing (hbase : base.forward.Tracks E base'.forward V)
    (htests : tests.Attempts E property I) (fuel : Nat) {u : σ × τ} {v : σ' × Unit} (h : Alike V I u v) :
    Move.Tracks E (Alike V I) (pullPassing base tests fuel) (pullPassing base' (having property) fuel) u v := by
  induction fuel generalizing u v with
  | zero => exact .pure h
  | succ fuel ih =>
    have hnext : Move.Tracks E (Alike V I) (Move.onFst base.next) (Move.onFst base'.next) u v :=
      (hbase.pull h.1).onPart fun hV => ⟨hV, h.2⟩
    refine hnext.bind fun found u v h => ?_
    cases found with
    | none => exact .pure h
    | some x =>
      refine (tracks_test htests h x).bind fun passed u v h => ?_
      cases passed with
      | true => exact .pure h
      | false => exact ih h

/-- A filter tracks the filter by the property that its tests attempt to decide. -/
theorem tracks (hbase : base.forward.Tracks E base'.forward V) (htests : tests.Attempts E property I) :
    (producer base tests).Tracks E (producer base' (having property)) (Alike V I) where
  pull {u v} h := by
    have hcapacity : base.capacity u.1 = base'.capacity v.1 := hbase.capacity h.1
    refine .read ?_
    rw [hcapacity]
    exact tracks_pullPassing hbase htests _ h
  capacity h := hbase.capacity h.1
  isOrdered h := hbase.isOrdered h.1

end Filter

/-! ### Mappings -/

namespace MapEach

variable {base : Navigation σ} {base' : Navigation σ'} {V : σ → σ' → Prop} {image : AtomId → Metered (Option AtomId)}
  {f : AtomId → Option AtomId}

private theorem tracks_pullImage (hbase : base.forward.Tracks E base'.forward V)
    (hok : ∀ x y, (image x).answer = .ok y → y = f x) (herror : ∀ x e, (image x).answer = .error e → E e) (fuel : Nat)
    {s : σ} {t : σ'} (h : V s t) :
    Move.Tracks E V (pullImage base image fuel) (pullImage base' (fun x => pure (f x)) fuel) s t := by
  induction fuel generalizing s t with
  | zero => exact .pure h
  | succ fuel ih =>
    refine Move.Tracks.bind (hbase.pull h) fun found s t h => ?_
    cases found with
    | none => exact .pure h
    | some x =>
      have himage : ∀ y, (image x).answer = .ok y → (pure (f x) : Metered (Option AtomId)).answer = .ok y :=
        fun y hy => by rw [hok x y hy]; rfl
      refine Move.Tracks.bind (.lift himage (herror x) h) fun y s t h => ?_
      cases y with
      | some y => exact .pure h
      | none => exact ih h

/-- A mapping tracks the mapping by what the images are where they can be had. -/
theorem tracks (hbase : base.forward.Tracks E base'.forward V) (hok : ∀ x y, (image x).answer = .ok y → y = f x)
    (herror : ∀ x e, (image x).answer = .error e → E e) :
    (producer base image).Tracks E (producer base' fun x => pure (f x)) V where
  pull {s t} h := by
    have hcapacity : base.capacity s = base'.capacity t := hbase.capacity h
    refine .read ?_
    rw [hcapacity]
    exact tracks_pullImage hbase hok herror _ h
  capacity h := hbase.capacity h
  isOrdered _ := rfl

end MapEach

end HyperQuery
