import HyperQuery.Metered

/-!
# Answers of computations in steps

How the answer of a sequence of steps follows from the answers of the steps: for computations that may fail
(`Except`), for metered ones, and for moves on a state. Costs play no part: `Move.Gives` says what a move answers and
which state it reaches, whatever it spends on the way, `Move.Agree` that two moves on related states answer the same and
keep the states related, `Move.Tracks` that one of them may also fail, and `Move.Keeps` that a move keeps a property of
the state, whether or not it fails. `Move.Ensures` adds what is known of the answers.
-/

namespace HyperQuery

variable {α β σ τ : Type}

/-! ### Computations that may fail -/

theorem bind_eq_ok_iff {ε : Type} {x : Except ε α} {f : α → Except ε β} {b : β} :
    x >>= f = .ok b ↔ ∃ a, x = .ok a ∧ f a = .ok b := by
  cases x with
  | error e => simp [bind, Except.bind]
  | ok a => simp [bind, Except.bind]

theorem exists_of_isOk {ε : Type} {x : Except ε α} (h : x.isOk = true) : ∃ a, x = .ok a := by
  cases x with
  | error e => cases h
  | ok a => exact ⟨a, rfl⟩

theorem exists_of_map_eq_ok {ε : Type} {x : Except ε α} {f : α → β} {b : β} (h : x.map f = .ok b) :
    ∃ a, x = .ok a ∧ f a = b := by
  cases x with
  | error e => simp [Except.map] at h
  | ok a => exact ⟨a, rfl, Except.ok.inj h⟩

theorem bind_congr_ok {ε : Type} {x : Except ε α} {f f' : α → Except ε β} (h : ∀ a, x = .ok a → f a = f' a) :
    x >>= f = x >>= f' := by
  cases x with
  | error e => rfl
  | ok a => exact h a rfl

/-- The results of a list of computations that succeeds are the results of its members. -/
theorem mem_of_mapM_eq_ok {ε : Type} {f : α → Except ε β} {xs : List α} {ys : List β} (h : xs.mapM f = .ok ys) {y : β} :
    y ∈ ys ↔ ∃ x ∈ xs, f x = .ok y := by
  induction xs generalizing ys with
  | nil =>
    cases h
    simp
  | cons x xs ih =>
    rw [List.mapM_cons] at h
    obtain ⟨z, hz, h⟩ := bind_eq_ok_iff.mp h
    obtain ⟨zs, hzs, h⟩ := bind_eq_ok_iff.mp h
    cases h
    rw [List.mem_cons, ih hzs]
    constructor
    · rintro (rfl | ⟨w, hw, hy⟩)
      · exact ⟨x, by simp, hz⟩
      · exact ⟨w, by simp [hw], hy⟩
    · rintro ⟨w, hw, hy⟩
      rcases List.mem_cons.mp hw with rfl | hw
      · exact .inl (Except.ok.inj (hy.symm.trans hz))
      · exact .inr ⟨w, hw, hy⟩

theorem exists_of_mapM_eq_ok {ε : Type} {f : α → Except ε β} {xs : List α} {ys : List β} (h : xs.mapM f = .ok ys) :
    ∀ x ∈ xs, ∃ y, f x = .ok y := by
  induction xs generalizing ys with
  | nil => simp
  | cons x xs ih =>
    rw [List.mapM_cons] at h
    obtain ⟨y, hy, h⟩ := bind_eq_ok_iff.mp h
    obtain ⟨rest, hrest, -⟩ := bind_eq_ok_iff.mp h
    exact List.forall_mem_cons.mpr ⟨⟨y, hy⟩, ih hrest⟩

/-- A list of computations succeeds if its members do. -/
theorem exists_mapM_eq_ok {ε : Type} {f : α → Except ε β} {xs : List α} (h : ∀ x ∈ xs, ∃ y, f x = .ok y) :
    ∃ ys, xs.mapM f = .ok ys := by
  induction xs with
  | nil => exact ⟨[], rfl⟩
  | cons x xs ih =>
    obtain ⟨y, hy⟩ := h x (by simp)
    obtain ⟨ys, hys⟩ := ih fun z hz => h z (by simp [hz])
    refine ⟨y :: ys, ?_⟩
    rw [List.mapM_cons, hy]
    show (xs.mapM f >>= fun ys => pure (y :: ys)) = _
    rw [hys]
    rfl

/-! ### Metered computations -/

namespace Metered

theorem answer_bind_of_ok {x : Metered α} {f : α → Metered β} {a : α} (h : x.answer = .ok a) :
    (x >>= f).answer = (f a).answer := by
  rw [answer_bind, h]
  rfl

theorem answer_bind_of_error {x : Metered α} {f : α → Metered β} {e : QueryError} (h : x.answer = .error e) :
    (x >>= f).answer = .error e := by
  rw [answer_bind, h]
  rfl

theorem answer_bind_eq_ok_iff {x : Metered α} {f : α → Metered β} {b : β} :
    (x >>= f).answer = .ok b ↔ ∃ a, x.answer = .ok a ∧ (f a).answer = .ok b := by
  rw [answer_bind]
  exact bind_eq_ok_iff

theorem answer_bind_eq_error_iff {x : Metered α} {f : α → Metered β} {e : QueryError} :
    (x >>= f).answer = .error e ↔ x.answer = .error e ∨ ∃ a, x.answer = .ok a ∧ (f a).answer = .error e := by
  rw [answer_bind]
  rcases x.answer with e' | a <;> simp [bind, Except.bind]

@[simp] theorem answer_ofExcept (r : Except QueryError α) : (ofExcept r).answer = r := rfl

end Metered

/-! ### Moves -/

namespace Move

theorem bind_of_pure {m : Move σ α} {f : α → Move σ β} {s t : σ} {a : α} (h : m s = (Pure.pure a, t)) :
    (m >>= f) s = f a t := by
  rw [bind_ok h, Meters.zero_add]

theorem bind_of_fail {m : Move σ α} {f : α → Move σ β} {s t : σ} {e : QueryError} (h : m s = (Metered.fail e, t)) :
    (m >>= f) s = (Metered.fail e, t) := bind_error h

theorem read_bind {f : σ → Move σ β} {s : σ} : (Move.read >>= f) s = f s s :=
  bind_of_pure (show Move.read s = (Pure.pure s, s) from rfl)

theorem update_bind {g : σ → σ} {f : Unit → Move σ β} {s : σ} : (Move.update g >>= f) s = f () (g s) :=
  bind_of_pure (show Move.update g s = (Pure.pure (), g s) from rfl)

/-- From the state `s` the move answers `x` and reaches the state `t`. -/
def Gives (m : Move σ α) (s : σ) (x : α) (t : σ) : Prop := (m s).1.answer = .ok x ∧ (m s).2 = t

theorem Gives.pure {s : σ} {x : α} : Gives (Pure.pure x : Move σ α) s x s := ⟨rfl, rfl⟩

theorem Gives.read {s : σ} : Gives (Move.read : Move σ σ) s s s := ⟨rfl, rfl⟩

theorem Gives.update {f : σ → σ} {s : σ} : Gives (Move.update f) s () (f s) := ⟨rfl, rfl⟩

theorem Gives.lift {x : Metered α} {s : σ} {a : α} (h : x.answer = .ok a) :
    Gives (MonadLift.monadLift x : Move σ α) s a s := ⟨h, rfl⟩

theorem Gives.bind {m : Move σ α} {f : α → Move σ β} {s t u : σ} {x : α} {y : β} (h : m.Gives s x t)
    (hf : (f x).Gives t y u) : (m >>= f).Gives s y u := by
  obtain ⟨h1, h2⟩ := h
  rcases hm : m s with ⟨⟨answer, spent⟩, t'⟩
  rw [hm] at h1 h2
  change answer = .ok x at h1
  change t' = t at h2
  subst h1 h2
  unfold Gives
  rw [bind_ok hm]
  exact hf

theorem Gives.onPart {get : τ → σ} {set : σ → τ → τ} {m : Move σ α} {t : τ} {s : σ} {x : α}
    (h : m.Gives (get t) x s) : (Move.onPart get set m).Gives t x (set s t) :=
  ⟨h.1, congrArg (fun s => set s t) h.2⟩

theorem Gives.onFst {m : Move σ α} {s s' : σ} {t : τ} {x : α} (h : m.Gives s x s') :
    (Move.onFst m).Gives (s, t) x (s', t) := by
  unfold Move.onFst
  exact Gives.onPart h

theorem Gives.onSnd {m : Move τ α} {s : σ} {t t' : τ} {x : α} (h : m.Gives t x t') :
    (Move.onSnd m).Gives (s, t) x (s, t') := by
  unfold Move.onSnd
  exact Gives.onPart h

theorem Gives.of_onPart {get : τ → σ} {set : σ → τ → τ} {m : Move σ α} {t u : τ} {x : α}
    (h : (Move.onPart get set m).Gives t x u) : ∃ s, m.Gives (get t) x s ∧ set s t = u := ⟨_, ⟨h.1, rfl⟩, h.2⟩

theorem Gives.of_onFst {m : Move σ α} {s : σ} {t : τ} {u : σ × τ} {x : α} (h : (Move.onFst m).Gives (s, t) x u) :
    ∃ s', m.Gives s x s' ∧ (s', t) = u := by
  unfold Move.onFst at h
  exact h.of_onPart

theorem Gives.of_onSnd {m : Move τ α} {s : σ} {t : τ} {u : σ × τ} {x : α} (h : (Move.onSnd m).Gives (s, t) x u) :
    ∃ t', m.Gives t x t' ∧ (s, t') = u := by
  unfold Move.onSnd at h
  exact h.of_onPart

theorem Gives.of_read {f : σ → Move σ β} {s t : σ} {y : β} (h : (Move.read >>= f).Gives s y t) : (f s).Gives s y t := h

/-- What a sequence answers comes from an answer of its first move. -/
theorem gives_bind_iff {m : Move σ α} {f : α → Move σ β} {s u : σ} {y : β} :
    (m >>= f).Gives s y u ↔ ∃ x t, m.Gives s x t ∧ (f x).Gives t y u := by
  constructor
  · intro h
    rcases hm : m s with ⟨⟨answer, spent⟩, t⟩
    unfold Gives at h
    cases answer with
    | ok x =>
      rw [bind_ok hm] at h
      exact ⟨x, t, ⟨by rw [hm], by rw [hm]⟩, h⟩
    | error e =>
      rw [bind_error hm] at h
      simp at h
  · rintro ⟨x, t, hm, hf⟩
    exact hm.bind hf

/-- A move answers only one thing. -/
theorem Gives.unique {m : Move σ α} {s t u : σ} {x y : α} (h : m.Gives s x t) (h' : m.Gives s y u) : x = y ∧ t = u :=
  ⟨Except.ok.inj (h.1.symm.trans h'.1), h.2.symm.trans h'.2⟩

/-- From the state `s` the move fails with the error and reaches the state `t`. -/
def Fails (m : Move σ α) (s : σ) (e : QueryError) (t : σ) : Prop := (m s).1.answer = .error e ∧ (m s).2 = t

theorem Fails.bind {m : Move σ α} {f : α → Move σ β} {s t : σ} {e : QueryError} (h : m.Fails s e t) :
    (m >>= f).Fails s e t := by
  obtain ⟨h1, h2⟩ := h
  rcases hm : m s with ⟨⟨answer, spent⟩, t'⟩
  rw [hm] at h1 h2
  change answer = .error e at h1
  change t' = t at h2
  subst h1 h2
  unfold Fails
  rw [bind_error hm]
  exact ⟨rfl, rfl⟩

theorem Fails.lift {x : Metered α} {s : σ} {e : QueryError} (h : x.answer = .error e) :
    Fails (MonadLift.monadLift x : Move σ α) s e s := ⟨h, rfl⟩

theorem Fails.read {f : σ → Move σ β} {s t : σ} {e : QueryError} (h : (f s).Fails s e t) :
    (Move.read >>= f).Fails s e t := h

theorem Gives.fails_bind {m : Move σ α} {f : α → Move σ β} {s t u : σ} {x : α} {e : QueryError} (h : m.Gives s x t)
    (hf : (f x).Fails t e u) : (m >>= f).Fails s e u := by
  obtain ⟨h1, h2⟩ := h
  rcases hm : m s with ⟨⟨answer, spent⟩, t'⟩
  rw [hm] at h1 h2
  change answer = .ok x at h1
  change t' = t at h2
  subst h1 h2
  unfold Fails
  rw [bind_ok hm]
  exact hf

theorem Fails.onPart {get : τ → σ} {set : σ → τ → τ} {m : Move σ α} {t : τ} {s : σ} {e : QueryError}
    (h : m.Fails (get t) e s) : (Move.onPart get set m).Fails t e (set s t) :=
  ⟨h.1, congrArg (fun s => set s t) h.2⟩

theorem Fails.onFst {m : Move σ α} {s s' : σ} {t : τ} {e : QueryError} (h : m.Fails s e s') :
    (Move.onFst m).Fails (s, t) e (s', t) := by
  unfold Move.onFst
  exact Fails.onPart h

theorem Fails.onSnd {m : Move τ α} {s : σ} {t t' : τ} {e : QueryError} (h : m.Fails t e t') :
    (Move.onSnd m).Fails (s, t) e (s, t') := by
  unfold Move.onSnd
  exact Fails.onPart h

theorem gives_or_fails (m : Move σ α) (s : σ) : (∃ x t, m.Gives s x t) ∨ ∃ e t, m.Fails s e t := by
  rcases h : (m s).1.answer with e | x
  · exact .inr ⟨e, _, h, rfl⟩
  · exact .inl ⟨x, _, h, rfl⟩

/-- A move fails in only one way. -/
theorem Fails.unique {m : Move σ α} {s t u : σ} {e e' : QueryError} (h : m.Fails s e t) (h' : m.Fails s e' u) :
    e = e' ∧ t = u := ⟨Except.error.inj (h.1.symm.trans h'.1), h.2.symm.trans h'.2⟩

theorem Fails.not_gives {m : Move σ α} {s t u : σ} {e : QueryError} {x : α} (h : m.Fails s e t) : ¬ m.Gives s x u :=
  fun h' => nomatch h.1.symm.trans h'.1

/-- A sequence fails because one of its moves does. -/
theorem fails_bind_iff {m : Move σ α} {f : α → Move σ β} {s u : σ} {e : QueryError} :
    (m >>= f).Fails s e u ↔ m.Fails s e u ∨ ∃ x t, m.Gives s x t ∧ (f x).Fails t e u := by
  refine ⟨fun h => ?_, fun h => h.elim Fails.bind fun ⟨x, t, hm, hf⟩ => hm.fails_bind hf⟩
  rcases gives_or_fails m s with ⟨x, t, hm⟩ | ⟨e', t, hm⟩
  · rcases gives_or_fails (f x) t with ⟨y, v, hf⟩ | ⟨e', v, hf⟩
    · exact absurd (hm.bind hf) h.not_gives
    · obtain ⟨rfl, rfl⟩ := h.unique (hm.fails_bind hf)
      exact .inr ⟨x, t, hm, hf⟩
  · obtain ⟨rfl, rfl⟩ := h.unique hm.bind
    exact .inl hm

/-! ### All the ways in which a move ends -/

/-- However the move ends, its answer, which may be an error, and the state that it reaches are so. -/
def Satisfies (m : Move σ α) (Q : Except QueryError α → σ → Prop) (s : σ) : Prop := Q (m s).1.answer (m s).2

section Satisfies

variable {m : Move σ α} {f : α → Move σ β} {P Q : Except QueryError α → σ → Prop} {R : Except QueryError β → σ → Prop}
  {s t : σ}

theorem Satisfies.gives {x : α} (h : m.Satisfies Q s) (hm : m.Gives s x t) : Q (.ok x) t := by
  unfold Satisfies at h
  rwa [hm.1, hm.2] at h

theorem Gives.satisfies {x : α} (h : m.Gives s x t) (hQ : Q (.ok x) t) : m.Satisfies Q s := by
  unfold Satisfies
  rwa [h.1, h.2]

theorem Fails.satisfies {e : QueryError} (h : m.Fails s e t) (hQ : Q (.error e) t) : m.Satisfies Q s := by
  unfold Satisfies
  rwa [h.1, h.2]

theorem Satisfies.fails {e : QueryError} (h : m.Satisfies Q s) (hm : m.Fails s e t) : Q (.error e) t := by
  unfold Satisfies at h
  rwa [hm.1, hm.2] at h

theorem satisfies_iff : m.Satisfies Q s ↔
    (∀ x t, m.Gives s x t → Q (.ok x) t) ∧ ∀ e t, m.Fails s e t → Q (.error e) t := by
  refine ⟨fun h => ⟨fun _ _ => h.gives, fun _ _ => h.fails⟩, fun ⟨hgives, hfails⟩ => ?_⟩
  unfold Satisfies
  rcases m.gives_or_fails s with ⟨x, t, hm⟩ | ⟨e, t, hm⟩
  · rw [hm.1, hm.2]
    exact hgives x t hm
  · rw [hm.1, hm.2]
    exact hfails e t hm

theorem Satisfies.imp (h : m.Satisfies P s) (hPQ : ∀ r t, P r t → Q r t) : m.Satisfies Q s := hPQ _ _ h

theorem Satisfies.pure {x : α} (h : Q (.ok x) s) : (Pure.pure x : Move σ α).Satisfies Q s := h

theorem Satisfies.update {g : σ → σ} {Q : Except QueryError Unit → σ → Prop} (h : Q (.ok ()) (g s)) :
    (Move.update g).Satisfies Q s := h

theorem Satisfies.read {f : σ → Move σ β} (h : (f s).Satisfies R s) : (Move.read >>= f).Satisfies R s := h

/-- A sequence ends as what follows its first move ends, or with the error of that. -/
theorem Satisfies.bind (h : m.Satisfies P s) (hok : ∀ x t, P (.ok x) t → (f x).Satisfies R t)
    (herror : ∀ e t, P (.error e) t → R (.error e) t) : (m >>= f).Satisfies R s := by
  refine satisfies_iff.mpr ⟨fun y u hy => ?_, fun e u he => ?_⟩
  · obtain ⟨x, t, hm, hf⟩ := gives_bind_iff.mp hy
    exact (hok x t (h.gives hm)).gives hf
  · rcases fails_bind_iff.mp he with hm | ⟨x, t, hm, hf⟩
    · exact herror e u (h.fails hm)
    · exact (hok x t (h.gives hm)).fails hf

end Satisfies

/-! ### Moves on related states -/

/-- From the two states the two moves answer the same, and reach states in the relation. -/
def Agree (V : σ → τ → Prop) (m : Move σ α) (m' : Move τ α) (s : σ) (t : τ) : Prop :=
  (m s).1.answer = (m' t).1.answer ∧ V (m s).2 (m' t).2

variable {V : σ → τ → Prop} {s s' : σ} {t t' : τ}

theorem Gives.agree {m : Move σ α} {m' : Move τ α} {x : α} (h : m.Gives s x s') (h' : m'.Gives t x t') (hV : V s' t') :
    Agree V m m' s t := by
  obtain ⟨h1, rfl⟩ := h
  obtain ⟨h1', rfl⟩ := h'
  exact ⟨h1.trans h1'.symm, hV⟩

theorem Fails.agree {m : Move σ α} {m' : Move τ α} {e : QueryError} (h : m.Fails s e s') (h' : m'.Fails t e t')
    (hV : V s' t') : Agree V m m' s t := by
  obtain ⟨h1, rfl⟩ := h
  obtain ⟨h1', rfl⟩ := h'
  exact ⟨h1.trans h1'.symm, hV⟩

theorem Agree.pure {x : α} (hV : V s t) : Agree V (Pure.pure x) (Pure.pure x) s t := ⟨rfl, hV⟩

theorem Agree.read {f : σ → Move σ β} {f' : τ → Move τ β} (h : Agree V (f s) (f' t) s t) :
    Agree V (Move.read >>= f) (Move.read >>= f') s t := h

theorem Agree.lift {x y : Metered α} (hxy : x.answer = y.answer) (hV : V s t) :
    Agree V (MonadLift.monadLift x) (MonadLift.monadLift y) s t := ⟨hxy, hV⟩

theorem Agree.bind {m : Move σ α} {m' : Move τ α} {f : α → Move σ β} {f' : α → Move τ β} (h : Agree V m m' s t)
    (hf : ∀ x {s' t'}, V s' t' → Agree V (f x) (f' x) s' t') : Agree V (m >>= f) (m' >>= f') s t := by
  obtain ⟨hanswer, hV⟩ := h
  rcases hm : m s with ⟨⟨answer, spent⟩, s'⟩
  rcases hm' : m' t with ⟨⟨answer', spent'⟩, t'⟩
  rw [hm, hm'] at hanswer hV
  change answer = answer' at hanswer
  subst hanswer
  unfold Agree
  cases answer with
  | ok x =>
    rw [bind_ok hm, bind_ok hm']
    exact hf x hV
  | error e =>
    rw [bind_error hm, bind_error hm']
    exact ⟨rfl, hV⟩

/-- A move that gives an answer has a counterpart that gives it too. -/
theorem Agree.gives {m : Move σ α} {m' : Move τ α} {x : α} (h : Agree V m m' s t) (h' : m'.Gives t x t') :
    ∃ s', m.Gives s x s' ∧ V s' t' := by
  obtain ⟨h1, rfl⟩ := h'
  exact ⟨_, ⟨h.1.trans h1, rfl⟩, h.2⟩

/-! ### Moves that may fail -/

/-- From the two states the first move answers what the second one answers, or it fails with a permitted error. States
in the relation are reached either way. -/
inductive Tracks (E : QueryError → Prop) (V : σ → τ → Prop) (m : Move σ α) (m' : Move τ α) (s : σ) (t : τ) : Prop
  | answers {x : α} {s' : σ} {t' : τ} (h : m.Gives s x s') (h' : m'.Gives t x t') (hV : V s' t')
  | fails {e : QueryError} {s' : σ} {t' : τ} (h : m.Fails s e s') (he : E e) (hV : V s' t')

variable {E : QueryError → Prop}

theorem Tracks.pure {x : α} (hV : V s t) : Tracks E V (Pure.pure x) (Pure.pure x) s t := .answers .pure .pure hV

theorem Tracks.update {f : σ → σ} {f' : τ → τ} (hV : V (f s) (f' t)) :
    Tracks E V (Move.update f) (Move.update f') s t := .answers .update .update hV

theorem Tracks.read {f : σ → Move σ β} {f' : τ → Move τ β} (h : Tracks E V (f s) (f' t) s t) :
    Tracks E V (Move.read >>= f) (Move.read >>= f') s t := by
  cases h with
  | answers h h' hV => exact .answers (Gives.read.bind h) (Gives.read.bind h') hV
  | fails h he hV => exact .fails (Fails.read h) he hV

theorem Tracks.lift {x y : Metered α} (hok : ∀ a, x.answer = .ok a → y.answer = .ok a)
    (herror : ∀ e, x.answer = .error e → E e) (hV : V s t) :
    Tracks E V (MonadLift.monadLift x) (MonadLift.monadLift y) s t := by
  rcases hx : x.answer with e | a
  · exact .fails (.lift hx) (herror e hx) hV
  · exact .answers (.lift hx) (.lift (hok a hx)) hV

theorem Tracks.bind {m : Move σ α} {m' : Move τ α} {f : α → Move σ β} {f' : α → Move τ β} (h : Tracks E V m m' s t)
    (hf : ∀ x {s' t'}, V s' t' → Tracks E V (f x) (f' x) s' t') : Tracks E V (m >>= f) (m' >>= f') s t := by
  cases h with
  | answers h h' hV =>
    cases hf _ hV with
    | answers hrest hrest' hV => exact .answers (h.bind hrest) (h'.bind hrest') hV
    | fails hrest he hV => exact .fails (h.fails_bind hrest) he hV
  | fails h he hV => exact .fails h.bind he hV

theorem Tracks.onPart {σ' τ' : Type} {W : σ' → τ' → Prop} {get : σ' → σ} {set : σ → σ' → σ'} {get' : τ' → τ}
    {set' : τ → τ' → τ'} {m : Move σ α} {m' : Move τ α} {u : σ'} {v : τ'} (h : Tracks E V m m' (get u) (get' v))
    (hW : ∀ {s t}, V s t → W (set s u) (set' t v)) :
    Tracks E W (Move.onPart get set m) (Move.onPart get' set' m') u v := by
  cases h with
  | answers h h' hV => exact .answers h.onPart h'.onPart (hW hV)
  | fails h he hV => exact .fails h.onPart he (hW hV)

/-! ### Properties that moves keep -/

/-- Whatever the move answers, the state keeps the property. -/
def Keeps (I : σ → Prop) (m : Move σ α) : Prop := ∀ s, I s → I (m s).2

variable {I : σ → Prop}

theorem Keeps.pure {x : α} : Keeps I (Pure.pure x) := fun _ => id

theorem Keeps.read : Keeps I Move.read := fun _ => id

theorem Keeps.fail {e : QueryError} : Keeps I (Move.fail e : Move σ α) := fun _ => id

theorem Keeps.lift {x : Metered α} : Keeps I (MonadLift.monadLift x) := fun _ => id

theorem Keeps.bind {m : Move σ α} {f : α → Move σ β} (h : Keeps I m) (hf : ∀ x, Keeps I (f x)) : Keeps I (m >>= f) := by
  intro s hs
  have hs' := h s hs
  rcases hm : m s with ⟨⟨answer, spent⟩, s'⟩
  rw [hm] at hs'
  cases answer with
  | ok x =>
    rw [bind_ok hm]
    exact hf x s' hs'
  | error e =>
    rw [bind_error hm]
    exact hs'

theorem Keeps.update {f : σ → σ} (h : ∀ s, I s → I (f s)) : Keeps I (Move.update f) := h

theorem Keeps.onPart {get : τ → σ} {set : σ → τ → τ} {J : τ → Prop} {m : Move σ α} (h : Keeps I m)
    (hget : ∀ t, J t → I (get t)) (hset : ∀ s t, I s → J t → J (set s t)) : Keeps J (Move.onPart get set m) :=
  fun t ht => hset _ t (h _ (hget t ht)) ht

theorem Keeps.onFst {J : τ → Prop} {m : Move σ α} (h : Keeps I m) :
    Keeps (fun u : σ × τ => I u.1 ∧ J u.2) (Move.onFst m) :=
  h.onPart (fun _ ht => ht.1) fun _ _ hs ht => ⟨hs, ht.2⟩

theorem Keeps.onSnd {J : σ → Prop} {m : Move τ α} {I : τ → Prop} (h : Keeps I m) :
    Keeps (fun u : σ × τ => J u.1 ∧ I u.2) (Move.onSnd m) :=
  h.onPart (fun _ ht => ht.2) fun _ _ hs ht => ⟨ht.1, hs⟩

/-- Whatever the move answers, the state keeps `I`, and the answer is in `A`. -/
def Ensures (I : σ → Prop) (A : α → Prop) (m : Move σ α) : Prop :=
  ∀ s, I s → m.Satisfies (fun r t => I t ∧ ∀ x, r = .ok x → A x) s

section Ensures

variable {A : α → Prop} {B : β → Prop} {m : Move σ α}

theorem Keeps.ensures (h : Keeps I m) : Ensures I (fun _ => True) m := fun s hs => ⟨h s hs, fun _ _ => trivial⟩

theorem Keeps.ensures_of (h : Keeps I m) (hA : ∀ s x, I s → (m s).1.answer = .ok x → A x) : Ensures I A m :=
  fun s hs => ⟨h s hs, fun x hx => hA s x hs hx⟩

theorem Ensures.keeps (h : Ensures I A m) : Keeps I m := fun s hs => (h s hs).1

theorem Ensures.imp {A' : α → Prop} (h : Ensures I A m) (hA : ∀ x, A x → A' x) : Ensures I A' m :=
  fun s hs => (h s hs).imp fun _ _ ⟨ht, hx⟩ => ⟨ht, fun x hr => hA x (hx x hr)⟩

theorem Ensures.pure {x : α} (hx : A x) : Ensures I A (Pure.pure x) :=
  fun _ hs => ⟨hs, fun _ hy => Except.ok.inj hy ▸ hx⟩

theorem Ensures.read : Ensures I I Move.read := fun _ hs => ⟨hs, fun _ ht => Except.ok.inj ht ▸ hs⟩

theorem Ensures.fail {e : QueryError} : Ensures I A (Move.fail e : Move σ α) := fun _ hs => ⟨hs, nofun⟩

theorem Ensures.lift {x : Metered α} (h : ∀ a, x.answer = .ok a → A a) : Ensures I A (MonadLift.monadLift x) :=
  fun _ hs => ⟨hs, h⟩

theorem Ensures.bind {f : α → Move σ β} (h : Ensures I A m) (hf : ∀ x, A x → Ensures I B (f x)) :
    Ensures I B (m >>= f) :=
  fun s hs => (h s hs).bind (fun x t ⟨ht, hx⟩ => hf x (hx x rfl) t ht) fun _ _ ⟨ht, _⟩ => ⟨ht, nofun⟩

theorem Ensures.onPart {get : τ → σ} {set : σ → τ → τ} {J : τ → Prop} (h : Ensures I A m)
    (hget : ∀ t, J t → I (get t)) (hset : ∀ s t, I s → J t → J (set s t)) : Ensures J A (Move.onPart get set m) := by
  intro t ht
  obtain ⟨hkept, hanswer⟩ := h _ (hget t ht)
  exact ⟨hset _ t hkept ht, hanswer⟩

theorem Ensures.onFst {J : τ → Prop} (h : Ensures I A m) :
    Ensures (fun u : σ × τ => I u.1 ∧ J u.2) A (Move.onFst m) :=
  h.onPart (fun _ ht => ht.1) fun _ _ hs ht => ⟨hs, ht.2⟩

theorem Ensures.onSnd {J : τ → Prop} (h : Ensures I A m) :
    Ensures (fun u : τ × σ => J u.1 ∧ I u.2) A (Move.onSnd m) :=
  h.onPart (fun _ ht => ht.2) fun _ _ hs ht => ⟨ht.1, hs⟩

end Ensures

end Move

end HyperQuery
