import HyperQuery.Proofs.Cursor.Failing
import Mathlib.Data.List.Basic

/-!
# Searches in filters with tests that fail

A test may fail on some candidates. A filter over a cursor of the items then looks for the first item that its test does
not reject, and either finds it or fails on it; both times the item has been passed (`Filter.Tries`). So a search that
fails leaves the filter behind the item that it failed on, whatever had been passed before.

Whether that can be noticed is decided in `Buffered.failed_goTo_iff`, first over any producer and then over filters.
Where the buffer stands it does not show (`current`), but steps forward go on from another place, unless a test had
failed on the same item just before.
-/

namespace HyperQuery

variable {σ τ : Type}

/-! ### Filters with tests that fail -/

/-- In the states in `J` the tests of the handles in the domain end with the verdicts on them, which may be errors, in
such a state again. -/
def Tester.Judges (tests : Tester τ) (domain : AtomId → Prop) (verdict : AtomId → Except QueryError Bool)
    (J : τ → Prop) : Prop :=
  ∀ {x t}, domain x → J t → (tests.test x).Satisfies (fun r t => r = verdict x ∧ J t) t

theorem Tester.judges_point {domain : AtomId → Prop} {test : AtomId → Metered Bool} :
    (point test).Judges domain (fun x => (test x).answer) fun _ => True := by
  intro x t _ _
  have hlift : Move.Satisfies (MonadLift.monadLift (test x) : Move Unit Bool) (fun r _ => r = (test x).answer) t := rfl
  exact hlift.bind (fun passed _ h => ⟨h, trivial⟩) fun e _ h => ⟨h, trivial⟩

namespace Filter

variable {base : Navigation σ} {tests : Tester τ} {items rest : List AtomId} {R : List AtomId → σ → Prop}
  {verdict : AtomId → Except QueryError Bool} {J : τ → Prop} {s : σ} {t : τ} {x : AtomId}
  {m m' : Move (σ × τ) (Option AtomId)} {u u' : σ × τ} {key : AtomId}

/-! ### Items that are not rejected -/

/-- Whether the test of the handle answers that it does not pass. -/
def rejected (verdict : AtomId → Except QueryError Bool) (x : AtomId) : Bool :=
  match verdict x with
  | .ok passed => !passed
  | .error _ => false

/-- What a filter answers for an item, if it is not rejected. -/
def event? (verdict : AtomId → Except QueryError Bool) (x : AtomId) : Option (Except QueryError (Option AtomId)) :=
  match verdict x with
  | .ok true => some (.ok (some x))
  | .ok false => none
  | .error e => some (.error e)

private theorem isSome_event? : (event? verdict x).isSome = !rejected verdict x := by
  unfold event? rejected
  rcases verdict x with e | _ | _ <;> rfl

private theorem filterMap_event?_rejected {before : List AtomId} (hbefore : ∀ y ∈ before, verdict y = .ok false) :
    before.filterMap (event? verdict) = [] := by
  refine List.filterMap_eq_nil_iff.mpr fun y hy => ?_
  rw [event?, hbefore y hy]

private theorem filterMap_event?_append {before : List AtomId} (hbefore : ∀ y ∈ before, verdict y = .ok false)
    {r : Except QueryError (Option AtomId)} (hx : event? verdict x = some r) :
    (before ++ x :: rest).filterMap (event? verdict) = r :: rest.filterMap (event? verdict) := by
  rw [List.filterMap_append, filterMap_event?_rejected hbefore, List.nil_append, List.filterMap_cons_some hx]

private theorem rejected_of_error {e : QueryError} (hx : verdict x = .error e) : rejected verdict x = false := by
  rw [rejected, hx]

private theorem eq_of_padded {α : Type} {a : α} {xs ys : List α} {j k : Nat} (hxs : a ∉ xs) (hys : a ∉ ys)
    (h : xs ++ .replicate j a = ys ++ .replicate k a) : xs = ys := by
  have hpadding {x : α} {xs ys : List α} {k : Nat} (h : x :: xs ++ ys = .replicate k a) : x = a :=
    List.eq_of_mem_replicate (h ▸ by simp : x ∈ List.replicate k a)
  induction xs generalizing ys with
  | nil =>
    cases ys with
    | nil => rfl
    | cons y ys =>
      obtain rfl := hpadding h.symm
      exact absurd List.mem_cons_self hys
  | cons x xs ih =>
    cases ys with
    | nil =>
      obtain rfl := hpadding h
      exact absurd List.mem_cons_self hxs
    | cons y ys =>
      obtain ⟨rfl, htail⟩ := List.cons_eq_cons.mp h
      rw [ih (fun hx => hxs (List.mem_cons_of_mem _ hx)) (fun hy => hys (List.mem_cons_of_mem _ hy)) htail]

private theorem none_notMem_filterMap : .ok none ∉ rest.filterMap (event? verdict) := by
  intro h
  obtain ⟨x, -, hx⟩ := List.mem_filterMap.mp h
  unfold event? at hx
  split at hx <;> cases hx

private theorem length_filterMap_event? (ids : List AtomId) :
    (ids.filterMap (event? verdict)).length = (ids.filter fun y => !rejected verdict y).length := by
  rw [List.length_filterMap_eq_countP, List.countP_eq_length_filter]
  simp only [isSome_event?]

private theorem filterMap_event?_filter (ids : List AtomId) :
    (ids.filter fun y => !rejected verdict y).filterMap (event? verdict) = ids.filterMap (event? verdict) := by
  rw [List.filterMap_filter]
  refine congrArg (fun f => ids.filterMap f) (funext fun y => ?_)
  have hsome : (event? verdict y).isSome = !rejected verdict y := isSome_event?
  split
  · rfl
  · simp_all

/-- A list without repetitions that is cut after an item is the same one cut in another place, exactly if that item is
the last one before the other cut. -/
private theorem eq_iff_getLast? {α : Type} {passed rest before rest' : List α} {a : α} (hnodup : (passed ++ rest).Nodup)
    (h : passed ++ rest = before ++ a :: rest') : rest' = rest ↔ passed.getLast? = some a := by
  rw [h] at hnodup
  constructor
  · rintro rfl
    rw [List.append_cons] at h
    rw [List.append_cancel_right h, List.getLast?_concat]
  · intro hlast
    obtain ⟨first, rfl⟩ : ∃ first, passed = first ++ [a] := List.getLast?_eq_some_iff.mp hlast
    obtain ⟨-, hcons, hdisjoint⟩ := List.nodup_append.mp hnodup
    have hbefore : a ∉ before := fun ha => hdisjoint a ha a List.mem_cons_self rfl
    rw [List.append_assoc, List.singleton_append] at h
    exact ((List.append_cons_inj_of_notMem hbefore (List.nodup_cons.mp hcons).1).mp h.symm).2.2

/-- After an item that is not rejected the same is to come as after some others, exactly if it is the last one among
those that is not rejected. -/
private theorem filterMap_eq_iff {passed rest' : List AtomId} (hitems : items.Nodup) (hpassed : passed ++ rest = items)
    (hrest' : x :: rest' <:+ items) (hx : rejected verdict x = false) :
    rest'.filterMap (event? verdict) = rest.filterMap (event? verdict) ↔
      (passed.filter fun y => !rejected verdict y).getLast? = some x := by
  obtain ⟨before, hbefore⟩ := hrest'
  have hsplit : (passed.filter fun y => !rejected verdict y) ++ (rest.filter fun y => !rejected verdict y) =
      (before.filter fun y => !rejected verdict y) ++ x :: rest'.filter fun y => !rejected verdict y := by
    rw [← List.filter_append, hpassed, ← hbefore, List.filter_append, List.filter_cons_of_pos (by simp [hx])]
  have hnodup : ((passed.filter fun y => !rejected verdict y) ++ rest.filter fun y => !rejected verdict y).Nodup := by
    rw [← List.filter_append, hpassed]
    exact hitems.filter _
  rw [← eq_iff_getLast? hnodup hsplit]
  constructor
  · intro h
    have hlength := congrArg List.length h
    rw [length_filterMap_event?, length_filterMap_event?] at hlength
    rw [List.append_cons] at hsplit
    exact (List.append_inj' hsplit hlength.symm).2.symm
  · intro h
    rw [← filterMap_event?_filter, h, filterMap_event?_filter]

/-! ### Looking for an item -/

/-- The move looks for the first of the items that is not rejected. It answers that item if it passes, and fails if its
test fails; in both cases what follows the item is to come from the base. -/
inductive Tries (R : List AtomId → σ → Prop) (verdict : AtomId → Except QueryError Bool) (J : τ → Prop)
    (m : Move (σ × τ) (Option AtomId)) (u : σ × τ) : List AtomId → Prop
  | rejects {items rest : List AtomId} {s : σ} {t : τ} (hitems : ∀ x ∈ items, verdict x = .ok false)
    (h : m.Gives u none (s, t)) (hs : R rest s) (ht : J t) : Tries R verdict J m u items
  | finds {before rest : List AtomId} {x : AtomId} {s : σ} {t : τ} (hbefore : ∀ y ∈ before, verdict y = .ok false)
    (hx : verdict x = .ok true) (h : m.Gives u (some x) (s, t)) (hs : R rest s) (ht : J t) :
    Tries R verdict J m u (before ++ x :: rest)
  | fails {before rest : List AtomId} {x : AtomId} {e : QueryError} {s : σ} {t : τ}
    (hbefore : ∀ y ∈ before, verdict y = .ok false) (hx : verdict x = .error e) (h : m.Fails u e (s, t)) (hs : R rest s)
    (ht : J t) : Tries R verdict J m u (before ++ x :: rest)

theorem Tries.bind {α : Type} {first : Move (σ × τ) α} {f : α → Move (σ × τ) (Option AtomId)} {y : α}
    (h : Tries R verdict J (f y) u items) (hfirst : first.Gives u' y u) : Tries R verdict J (first >>= f) u' items := by
  cases h with
  | rejects hitems h hs ht => exact .rejects hitems (hfirst.bind h) hs ht
  | finds hbefore hx h hs ht => exact .finds hbefore hx (hfirst.bind h) hs ht
  | fails hbefore hx h hs ht => exact .fails hbefore hx (hfirst.fails_bind h) hs ht

theorem Tries.cons (h : Tries R verdict J m u items) (hx : verdict x = .ok false) :
    Tries R verdict J m u (x :: items) := by
  have hcons {before : List AtomId} (hbefore : ∀ y ∈ before, verdict y = .ok false) :
      ∀ y ∈ x :: before, verdict y = .ok false := List.forall_mem_cons.mpr ⟨hx, hbefore⟩
  cases h with
  | rejects hitems h hs ht => exact .rejects (hcons hitems) h hs ht
  | finds hbefore hx h hs ht => exact .finds (hcons hbefore) hx h hs ht
  | fails hbefore hx h hs ht => exact .fails (hcons hbefore) hx h hs ht

theorem Tries.of_fails {e : QueryError} {v : σ × τ} (h : Tries R verdict J m u items) (hm : m.Fails u e v) :
    ∃ before x rest s t, items = before ++ x :: rest ∧ (∀ y ∈ before, verdict y = .ok false) ∧ verdict x = .error e ∧
      R rest s ∧ J t ∧ v = (s, t) := by
  cases h with
  | rejects _ h | finds _ _ h => exact absurd h hm.not_gives
  | fails hbefore hx h hs ht =>
    obtain ⟨rfl, rfl⟩ := hm.unique h
    exact ⟨_, _, _, _, _, rfl, hbefore, hx, hs, ht, rfl⟩

/-- The states of a filter from whose base items are to come. -/
def Open (R : List AtomId → σ → Prop) (J : τ → Prop) (u : σ × τ) : Prop := (∃ rest, R rest u.1) ∧ J u.2

private theorem Tries.satisfies {list : List AtomId} (h : Tries R verdict J m u list) (hlist : ∀ x ∈ list, x ∈ items) :
    m.Satisfies (fun r v => Open R J v ∧ ∀ x, r = .ok (some x) → x ∈ items ∧ verdict x = .ok true) u := by
  cases h with
  | rejects _ h hs ht =>
    unfold Move.Satisfies
    rw [h.1, h.2]
    exact ⟨⟨⟨_, hs⟩, ht⟩, nofun⟩
  | finds _ hx h hs ht =>
    unfold Move.Satisfies
    rw [h.1, h.2]
    refine ⟨⟨⟨_, hs⟩, ht⟩, ?_⟩
    rintro _ ⟨⟩
    exact ⟨hlist _ (by simp), hx⟩
  | fails _ _ h hs ht =>
    unfold Move.Satisfies
    rw [h.1, h.2]
    exact ⟨⟨⟨_, hs⟩, ht⟩, nofun⟩

/-- A candidate is tested, and if it is rejected something else is done. -/
private theorem tries_test (htests : tests.Judges (· ∈ items) verdict J) (hx : x ∈ items) (hs : R rest s) (ht : J t)
    (hrest : ∀ t', J t' → Tries R verdict J m (s, t') rest) :
    Tries R verdict J (do if ← Move.onSnd (tests.test x) then return some x else m) (s, t) (x :: rest) := by
  have htest := htests hx ht
  rcases (tests.test x).gives_or_fails t with ⟨passed, t', h⟩ | ⟨e, t', h⟩
  · obtain ⟨hverdict, ht'⟩ := htest.gives h
    cases passed with
    | true =>
      show Tries R verdict J _ (s, t) ([] ++ x :: rest)
      exact .finds (by simp) hverdict.symm (h.onSnd.bind .pure) hs ht'
    | false =>
      exact .bind (f := fun passed => if passed then pure (some x) else m) ((hrest t' ht').cons hverdict.symm) h.onSnd
  · obtain ⟨hverdict, ht'⟩ := htest.fails h
    show Tries R verdict J _ (s, t) ([] ++ x :: rest)
    exact .fails (by simp) hverdict.symm h.onSnd.bind hs ht'

variable (hbase : base.forward.Yields items true true R) (htests : tests.Judges (· ∈ items) verdict J)

include hbase htests

private theorem tries_pullPassing {fuel : Nat} (hfuel : rest.length < fuel) (hs : R rest s) (ht : J t) :
    Tries R verdict J (pullPassing base tests fuel) (s, t) rest := by
  induction fuel generalizing rest s t with
  | zero => omega
  | succ fuel ih =>
    cases rest with
    | nil =>
      obtain ⟨s', _, hnext, hs'⟩ := (hbase.pull hs).cases_nil
      exact .rejects (by simp) (hnext.onFst.bind .pure) hs' ht
    | cons x rest =>
      have hx : x ∈ items := (hbase.suffix hs).subset (by simp)
      obtain ⟨s', hnext, hs'⟩ := (hbase.pull hs).cases_cons
      exact .bind (y := some x)
        (tries_test htests hx hs' ht fun t' ht' => ih (by simpa using hfuel) hs' ht') hnext.onFst

theorem tries_pull (hs : R rest s) (ht : J t) : Tries R verdict J (pull base tests) (s, t) rest :=
  .bind (tries_pullPassing hbase htests (Nat.lt_succ_of_le (hbase.length_le hs)) hs ht) .read

theorem tries_seek (hs : R rest s) (ht : J t) :
    Tries R verdict J ((producer base tests).seek key) (s, t) (AtomSet.upFrom key items) := by
  have hdraw := hbase.seek rfl rfl key hs
  rcases hup : AtomSet.upFrom key items with _ | ⟨x, tail⟩
  · rw [hup] at hdraw
    obtain ⟨s', _, hseek, hs'⟩ := hdraw.cases_nil
    exact .rejects (by simp) (hseek.onFst.bind .pure) hs' ht
  · rw [hup] at hdraw
    have hx : x ∈ items := (AtomSet.mem_upFrom.mp (hup ▸ List.mem_cons_self)).1
    obtain ⟨s', hseek, hs'⟩ := hdraw.cases_cons
    exact .bind (y := some x) (tries_test htests hx hs' ht fun t' ht' => tries_pull hbase htests hs' ht') hseek.onFst

/-- Whether or not its tests fail, a filter stays open, and answers only items that pass. -/
theorem keeps : (producer base tests).Keeps (Open R J) fun x => x ∈ items ∧ verdict x = .ok true where
  pull := by
    rintro ⟨s, t⟩ ⟨⟨rest, hs⟩, ht⟩
    exact (tries_pull hbase htests hs ht).satisfies fun x hx => (hbase.suffix hs).subset hx
  seek := by
    rintro ⟨s, t⟩ key ⟨⟨rest, hs⟩, ht⟩
    exact (tries_seek hbase htests hs ht).satisfies fun x hx => (AtomSet.mem_upFrom.mp hx).1
  rewind := by
    rintro ⟨s, t⟩ ⟨⟨rest, hs⟩, ht⟩
    obtain ⟨s', hrewind, hs'⟩ := hbase.rewind hs
    obtain ⟨-, hstate⟩ : (producer base tests).rewind.Gives (s, t) () (s', t) := hrewind.onFst
    unfold Move.Satisfies
    rw [hstate]
    exact ⟨⟨_, hs'⟩, ht⟩

/-! ### What is to come from a filter -/

/-- A filter draws the items that are not rejected, passing or not, and then nothing. -/
private theorem draws_eq {j k : Nat} (hk : k ≤ j) (hs : R rest s) (ht : J t) :
    (producer base tests).draws k (s, t) = (rest.filterMap (event? verdict) ++ .replicate j (.ok none)).take k := by
  induction k generalizing rest s t with
  | zero => rfl
  | succ k ih =>
    cases tries_pull hbase htests hs ht with
    | rejects hitems h =>
      have hpull : (producer base tests).pull.Gives (s, t) none _ := h
      rw [filterMap_event?_rejected hitems, List.nil_append, List.take_replicate, Nat.min_eq_left hk,
        Producer.draws_of_none hpull]
    | finds hbefore hx h hs' ht' =>
      have hpull : (producer base tests).pull.Gives (s, t) (some _) _ := h
      rw [filterMap_event?_append hbefore (by rw [event?, hx]), Producer.draws_of_some hpull,
        ih (Nat.le_of_succ_le hk) hs' ht']
      rfl
    | fails hbefore hx h hs' ht' =>
      have hpull : (producer base tests).pull.Fails (s, t) _ _ := h
      rw [filterMap_event?_append hbefore (by rw [event?, hx]), Producer.draws_of_error hpull,
        ih (Nat.le_of_succ_le hk) hs' ht']
      rfl

/-- From two states a filter draws the same exactly if the same items that are not rejected are to come. -/
private theorem draws_eq_iff {rest' : List AtomId} {s' : σ} {t' : τ} (hs : R rest s) (ht : J t) (hs' : R rest' s')
    (ht' : J t') : (∀ k, (producer base tests).draws k (s', t') = (producer base tests).draws k (s, t)) ↔
      rest'.filterMap (event? verdict) = rest.filterMap (event? verdict) := by
  constructor
  · intro h
    let k := (rest.filterMap (event? verdict)).length + (rest'.filterMap (event? verdict)).length
    have hk := h k
    rw [draws_eq hbase htests (Nat.le_refl k) hs ht, draws_eq hbase htests (Nat.le_refl k) hs' ht', List.take_append,
      List.take_append, List.take_of_length_le (Nat.le_add_left _ _), List.take_of_length_le (Nat.le_add_right _ _),
      List.take_replicate, List.take_replicate] at hk
    exact eq_of_padded none_notMem_filterMap none_notMem_filterMap hk
  · intro h k
    rw [draws_eq hbase htests (Nat.le_refl k) hs ht, draws_eq hbase htests (Nat.le_refl k) hs' ht', h]

/-! ### Failing searches in filters -/

variable {b d : Buffered (σ × τ)} {exact : Bool} {e : QueryError}

/-- A failing search in a filter that is still to be pulled leaves it after the first item from the key on that is not
rejected, which is the one that the tests fail on. -/
private theorem source_of_fails (hb : Buffered.Sound (Open R J) (fun x => x ∈ items ∧ verdict x = .ok true) b)
    (hspent : ¬ Buffered.Spent b) (h : (Buffered.goTo (producer base tests) key exact).Fails b e d) :
    ∃ before x rest' s' t', AtomSet.upFrom key items = before ++ x :: rest' ∧ (∀ y ∈ before, verdict y = .ok false) ∧
      verdict x = .error e ∧ R rest' s' ∧ J t' ∧ d = { b with source := (s', t') } := by
  obtain ⟨⟨s, t⟩, seen, position, exhausted, closed⟩ := b
  obtain ⟨⟨rest, hs⟩, ht⟩ := hb.source
  have h := Buffered.satisfies_goTo.fails h
  cases h with
  | refused hrefused =>
    rcases hrefused with hclosed | haccess
    · exact absurd (.inl hclosed) hspent
    · have hrandom : (base.isOrdered s && base.isRandomAccess s) = false := haccess
      have ho : base.isOrdered s = true := hbase.isOrdered hs
      have hk : base.isRandomAccess s = true := hbase.isRandomAccess hs
      simp [ho, hk] at hrandom
  | seekFails _ hseek =>
    obtain ⟨before, x, rest', s', t', hup, hbefore, hx, hs', ht', rfl⟩ :=
      (tries_seek hbase htests hs ht).of_fails hseek
    exact ⟨before, x, rest', s', t', hup, hbefore, hx, hs', ht', rfl⟩
  | @backFails _ u _ _ _ hseek hback =>
    -- going back does not fail: what the buffer stands on has passed the tests
    obtain ⟨⟨⟨rest', hs'⟩, ht'⟩, -⟩ := ((keeps hbase htests).seek key ⟨⟨rest, hs⟩, ht⟩).gives hseek
    obtain ⟨s', t'⟩ := u
    cases hback with
    | rewindFails _ hrewind =>
      obtain ⟨s'', hgives, -⟩ := hbase.rewind hs'
      have hgives : (producer base tests).rewind.Gives (s', t') () (s'', t') := hgives.onFst
      exact absurd hgives hrewind.not_gives
    | @seekFails i y _ _ _ hy hseek =>
      obtain ⟨hmem, hpasses⟩ := hb.seen y (List.mem_of_getElem? hy)
      obtain ⟨before, x, _, _, _, hup, hbefore, hx, -⟩ := (tries_seek hbase htests hs' ht').of_fails hseek
      obtain ⟨tail, htail⟩ := AtomSet.exists_upFrom_of_mem (hbase.ascending rfl) hmem
      rw [htail] at hup
      cases before with
      | nil =>
        cases hup
        simp [hpasses] at hx
      | cons z before =>
        cases hup
        simp [hpasses] at hbefore
    | drainFails hposition => exact absurd (.inr (.inl hposition)) hspent

end Filter

namespace Buffered

/-- A search that fails changes the source only. So the buffer stands where it stood, and what later steps find is the
same exactly if none of them pulls from the source, or the source answers the same.

Take a filter over a cursor of the items in ascending order, with a verdict on each of them, and let it still pull
from its source. Then what later steps find is the same exactly if the item that the tests failed on is the last item
not rejected that the cursor of the items had come past before. -/
theorem failed_goTo_iff (qs : List Request) (key : AtomId) (exact : Bool) (e : QueryError) :
    (∀ {σ : Type} (p : Producer σ) (s : σ),
      let n := navigation p
      let b := n.after qs (.start s)
      let b' := n.after [.goTo key exact] b
      n.replies [.goTo key exact] b = [.error e] →
        n.current b' = n.current b ∧
        ((∀ k, n.replies (.replicate k .next) b' = n.replies (.replicate k .next) b) ↔
          Spent b ∨ ∀ k, p.draws k b'.source = p.draws k b.source)) ∧
    ∀ {σ τ : Type} {base : Navigation σ} {s : σ} {items : List AtomId} {tests : Tester τ} {t : τ}
      {verdict : AtomId → Except QueryError Bool} {J : τ → Prop},
      base.Denotes s items true true → tests.Judges (· ∈ items) verdict J → J t →
      let n := navigation (Filter.producer base tests)
      let b := n.after qs (.start (s, t))
      let b' := n.after [.goTo key exact] b
      n.replies [.goTo key exact] b = [.error e] → ¬ Spent b →
        ∃ passed rest x, passed ++ rest = items ∧
          base.replies (.replicate (rest.length + 1) .next) b.source.1 = Reply.elements (rest.map some ++ [none]) ∧
          ((AtomSet.upFrom key items).find? fun y => !Filter.rejected verdict y) = some x ∧ verdict x = .error e ∧
          ((∀ k, n.replies (.replicate k .next) b' = n.replies (.replicate k .next) b) ↔
            (passed.filter fun y => !Filter.rejected verdict y).getLast? = some x) := by
  constructor
  · intro σ p s n b b' hfails
    obtain ⟨t, ht⟩ := source_of_fails_goTo (Navigation.fails_of_replies hfails)
    have hb' : b' = { b with source := t } := ht
    rw [hb']
    exact ⟨rfl, replies_next_iff (standing_after p s qs)⟩
  · intro σ τ base s items tests t verdict J hbase htests ht n b b' hfails hspent
    obtain ⟨R, hyields, hs⟩ := hbase.yields
    have hkept : Kept _ _ b := kept_start (Filter.keeps hyields htests) ⟨⟨items, hs⟩, ht⟩ qs
    have hsound := hkept.resolve_left fun hclosed => hspent (.inl hclosed)
    have hstanding : b.closed = true ∨ Standing b := .inr hsound.standing
    obtain ⟨before, x, rest', s', t', hup, hbefore, hx, hs', ht', hd⟩ :=
      Filter.source_of_fails hyields htests hsound hspent (Navigation.fails_of_replies hfails)
    have hb' : b' = { b with source := (s', t') } := hd
    obtain ⟨⟨rest, hrest⟩, hJ⟩ := hsound.source
    obtain ⟨passed, hpassed⟩ := hyields.suffix hrest
    have hkeep := Filter.rejected_of_error hx
    have hsuffix : x :: rest' <:+ items :=
      (List.suffix_append _ _).trans (hup ▸ AtomSet.upFrom_suffix (hyields.ascending rfl))
    refine ⟨passed, rest, x, hpassed, Navigation.replies_next_to_end hyields hrest, ?_, hx, ?_⟩
    · rw [hup, List.find?_append, List.find?_eq_none.mpr fun y hy => by simp [Filter.rejected, hbefore y hy],
        Option.none_or, List.find?_cons_of_pos (by simp [hkeep])]
    · rw [hb', replies_next_iff hstanding, or_iff_right hspent]
      rw [← Filter.filterMap_eq_iff (AtomSet.nodup_of_ascending (hyields.ascending rfl)) hpassed hsuffix hkeep]
      exact Filter.draws_eq_iff hyields htests hrest hJ hs' ht'

/-- The third of five items has failed a step forward already. Failing a search as well, it changes nothing. -/
theorem failed_goTo_repeated :
    let base := SnapshotCursor.navigation
    let broken : QueryError := .invalid "predicate failed"
    let test : AtomId → Metered Bool := fun x => if x = 3 then Metered.fail broken else pure true
    let n := navigation (Filter.producer base (Tester.point test))
    let b := n.after [.next, .next, .next] (.start (.start (.sorted [1, 2, 3, 4, 5]), ()))
    n.replies [.goTo 3 true] b = [.error broken] ∧
      ∀ k, n.replies (.replicate k .next) (n.after [.goTo 3 true] b) = n.replies (.replicate k .next) b := by
  intro base broken test n b
  have hbase : base.Denotes (.start (.sorted [1, 2, 3, 4, 5])) [1, 2, 3, 4, 5] true true :=
    .snapshot (.sorted [1, 2, 3, 4, 5]) fun _ => by decide
  have hfails : n.replies [.goTo 3 true] b = [.error broken] := by decide +kernel
  have hspent : ¬ Spent b := by
    rintro (h | h | h) <;> cases h
  obtain ⟨passed, rest, x, hpassed, hrest, hx, -, hiff⟩ :=
    (failed_goTo_iff [.next, .next, .next] 3 true broken).2 hbase Tester.judges_point trivial hfails hspent
  have hplaces : ∀ i < 6, base.replies (.replicate (([1, 2, 3, 4, 5].drop i).length + 1) .next) b.source.1 =
      Reply.elements (([1, 2, 3, 4, 5].drop i).map some ++ [none]) → [1, 2, 3, 4, 5].take i = [1, 2, 3] := by decide
  have hlength : passed.length < 6 := by
    have hsum := congrArg List.length hpassed
    rw [List.length_append] at hsum
    exact Nat.lt_succ_of_le (Nat.le_of_add_right_le (Nat.le_of_eq hsum))
  have hplace := hplaces passed.length hlength
  rw [← hpassed, List.drop_left, List.take_left] at hplace
  refine ⟨hfails, hiff.mpr ?_⟩
  rw [hplace hrest, ← hx]
  rfl

/-- Of five items the third one fails a search, and is then skipped together with the second one. -/
theorem failed_goTo_skips :
    let broken : QueryError := .invalid "predicate failed"
    let test : AtomId → Metered Bool := fun x => if x = 3 then Metered.fail broken else pure true
    let n := navigation (Filter.producer SnapshotCursor.navigation (Tester.point test))
    let b := n.after [.next] (.start (.start (.sorted [1, 2, 3, 4, 5]), ()))
    let b' := n.after [.goTo 3 true] b
    n.isRandomAccess b = true ∧ n.replies [.goTo 3 true] b = [.error broken] ∧ n.current b' = n.current b ∧
      n.replies [.next] b = [.ok (.element (some 2))] ∧ n.replies [.next] b' = [.ok (.element (some 4))] :=
  ⟨rfl, rfl, rfl, rfl, rfl⟩

end Buffered

end HyperQuery
