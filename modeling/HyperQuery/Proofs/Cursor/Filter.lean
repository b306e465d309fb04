import HyperQuery.Cursor.Filter
import HyperQuery.Proofs.Cursor.Basic

/-!
# Filters yield what passes, and mappings the images

A tester decides a property if in every state it can be in it answers the property and stays in such a state
(`Tester.Decides`). Tests by evaluation, by probing and by collecting decide what they are meant to, and so does one test
after the other. A filter over a cursor yields the handles with the property that the tests decide, and a mapping over a
cursor the images of the handles that have one.
-/

namespace HyperQuery

namespace Tester

variable {σ τ : Type}

/-- In the states that satisfy `I` the tests of the handles in the domain answer whether they have the property. -/
def Decides (tests : Tester τ) (domain : AtomId → Prop) (property : AtomId → Bool) (I : τ → Prop) : Prop :=
  ∀ {x t}, domain x → I t → ∃ t', (tests.test x).Gives t (property x) t' ∧ I t'

variable {domain : AtomId → Prop} {property : AtomId → Bool}

private theorem gives_counted {α : Type} {m : Move α Bool} {s t : α} {b : Bool} (h : m.Gives s b t) :
    (counted m).Gives s b t := h.bind (Move.Gives.bind (x := ()) ⟨rfl, rfl⟩ .pure)

theorem decides_point {test : AtomId → Metered Bool}
    (h : ∀ x, domain x → (test x).answer = .ok (property x)) :
    (point test).Decides domain property fun _ => True :=
  fun hx _ => ⟨(), gives_counted (.lift (h _ hx)), trivial⟩

theorem decides_always : always.Decides domain (fun _ => true) fun _ => True := fun _ _ => ⟨(), .pure, trivial⟩

theorem Decides.both {a : Tester σ} {b : Tester τ} {p q : AtomId → Bool} {I : σ → Prop} {J : τ → Prop}
    (ha : a.Decides domain p I) (hb : b.Decides domain q J) :
    (a.both b).Decides domain (fun x => p x && q x) fun s => I s.1 ∧ J s.2 := by
  rintro x ⟨s, t⟩ hx ⟨hs, ht⟩
  obtain ⟨s', htest, hs'⟩ := ha hx hs
  cases hp : p x with
  | true =>
    obtain ⟨t', htest', ht'⟩ := hb hx ht
    rw [hp] at htest
    refine ⟨(s', t'), htest.onFst.bind ?_, hs', ht'⟩
    simp only [hp, Bool.true_and]
    exact htest'.onSnd
  | false =>
    rw [hp] at htest
    refine ⟨(s', t), htest.onFst.bind ?_, hs', ht⟩
    simp only [hp, Bool.false_and]
    exact .pure

/-! ### Tests with a state that is prepared -/

/-- The state is still to be prepared, or has been. -/
inductive Prepared (I : σ → Prop) : Option σ → Prop
  | notYet : Prepared I none
  | ready {s : σ} (h : I s) : Prepared I (some s)

private theorem gives_prepare {make : Metered σ} {I : σ → Prop} {s : σ} (hmake : make.answer = .ok s) (hs : I s)
    {s? : Option σ} (h : Prepared I s?) : ∃ t, (prepare make).Gives s? () (some t) ∧ I t := by
  cases h with
  | notYet =>
    obtain ⟨answer, spent⟩ := make
    change answer = .ok s at hmake
    subst hmake
    exact ⟨s, ⟨rfl, rfl⟩, hs⟩
  | @ready s hs => exact ⟨s, ⟨rfl, rfl⟩, hs⟩

private theorem gives_onPrepared {α : Type} {missing x : α} {m : Move σ α} {s t : σ} (h : m.Gives s x t) :
    (onPrepared missing m).Gives (some s) x (some t) := ⟨h.1, congrArg some h.2⟩

/-- Probing a cursor decides whether a handle is among its items. -/
theorem decides_member {a : Access σ} {items : List AtomId} {R : List AtomId → σ → Prop} {s : σ} {rest : List AtomId}
    (hstart : a.start.answer = .ok s) (hs : R rest s) (h : a.toNavigation.Probes items R) :
    (member a).Decides domain (fun x => items.contains x) (Prepared fun s => ∃ rest, R rest s) := by
  intro x s? _ hs?
  obtain ⟨t, hprepare, rest', ht⟩ := gives_prepare hstart (I := fun s => ∃ rest, R rest s) ⟨rest, hs⟩ hs?
  obtain ⟨t', rest'', landing, hgoTo, ht', hlanding⟩ := h x ht
  have hfound : (landing == .found) = items.contains x := by
    rw [Bool.eq_iff_iff, beq_iff_eq, hlanding, List.contains_iff_mem]
  refine ⟨some t', hprepare.bind (gives_counted (gives_onPrepared (hgoTo.bind ?_))), .ready ⟨rest'', ht'⟩⟩
  rw [hfound]
  exact .pure

/-- Collecting a cursor, without a limit, decides whether a handle is among its items. -/
theorem decides_gather {a : Access σ} {items : List AtomId} {ordered seekable : Bool} {R : List AtomId → σ → Prop}
    {s : σ} (hstart : a.start.answer = .ok s) (hs : R items s)
    (h : a.toNavigation.forward.Yields items ordered seekable R) :
    (gather a none).Decides domain (fun x => items.contains x) (Prepared fun ids => ids = items) := by
  intro x s? _ hs?
  have hgathered : (gathered a none).answer = .ok items := by
    obtain ⟨t, hcollect, -⟩ := h.collect hs
    unfold gathered
    rw [Metered.answer_bind_of_ok hstart, Metered.answer_bind_of_ok hcollect]
    rfl
  obtain ⟨ids, hprepare, rfl⟩ := gives_prepare hgathered (I := fun ids => ids = items) rfl hs?
  exact ⟨some ids, hprepare.bind (gives_counted (gives_onPrepared (Move.Gives.read.bind .pure))), .ready rfl⟩

end Tester

namespace Filter

variable {σ τ : Type} {base : Navigation σ} {tests : Tester τ} {items : List AtomId} {ordered seekable : Bool}
  {R : List AtomId → σ → Prop} {property : AtomId → Bool} {I : τ → Prop}

/-- What is to come from a filter is what is to come from the base and passes. -/
inductive Rests (R : List AtomId → σ → Prop) (property : AtomId → Bool) (I : τ → Prop) : List AtomId → σ × τ → Prop
  | mk {rest : List AtomId} {s : σ} {t : τ} (hs : R rest s) (ht : I t) : Rests R property I (rest.filter property) (s, t)

private theorem draws_pullPassing (hbase : base.forward.Yields items ordered seekable R)
    (htests : tests.Decides (· ∈ items) property I) {fuel : Nat} {rest : List AtomId} {s : σ} {t : τ}
    (hfuel : rest.length < fuel) (hs : R rest s) (ht : I t) :
    Draws (pullPassing base tests fuel) (Rests R property I) (s, t) (rest.filter property) := by
  -- the fuel covers what is to come from the base, and every turn tests one candidate
  induction fuel generalizing rest s t with
  | zero => omega
  | succ fuel ih =>
    cases rest with
    | nil =>
      obtain ⟨s', _, hnext, hs'⟩ := (hbase.pull hs).cases_nil
      exact draws_nil (hnext.onFst.bind .pure) (.mk hs' ht)
    | cons x rest =>
      have hx : x ∈ items := (hbase.suffix hs).subset (by simp)
      obtain ⟨s', hnext, hs'⟩ := (hbase.pull hs).cases_cons
      obtain ⟨t', htest, ht'⟩ := htests hx ht
      cases hp : property x with
      | true =>
        rw [hp] at htest
        rw [List.filter_cons_of_pos hp]
        exact draws_cons (hnext.onFst.bind (htest.onSnd.bind .pure)) (.mk hs' ht')
      | false =>
        rw [hp] at htest
        rw [List.filter_cons_of_neg (by simp [hp])]
        obtain ⟨u, rest', hpull, hu⟩ := ih (by simpa using hfuel) hs' ht'
        exact ⟨u, rest', hnext.onFst.bind (htest.onSnd.bind hpull), hu⟩

private theorem draws_pull (hbase : base.forward.Yields items ordered seekable R)
    (htests : tests.Decides (· ∈ items) property I) {rest : List AtomId} {s : σ} {t : τ} (hs : R rest s) (ht : I t) :
    Draws (pull base tests) (Rests R property I) (s, t) (rest.filter property) := by
  obtain ⟨u, rest', hpull, hu⟩ := draws_pullPassing hbase htests (Nat.lt_succ_of_le (hbase.length_le hs)) hs ht
  exact ⟨u, rest', Move.Gives.read.bind hpull, hu⟩

/-- A filter yields the handles of the base that pass the tests. -/
theorem yields (hbase : base.forward.Yields items ordered seekable R)
    (htests : tests.Decides (· ∈ items) property I) :
    (producer base tests).Yields (items.filter property) ordered (ordered && seekable) (Rests R property I) where
  pull h := by
    cases h with
    | mk hs ht => exact draws_pull hbase htests hs ht
  rewind h := by
    cases h with
    | mk hs ht =>
      obtain ⟨s', hrewind, hs'⟩ := hbase.rewind hs
      exact ⟨_, hrewind.onFst, .mk hs' ht⟩
  seek ho hk _ _ key h := by
    subst ho
    have hk : seekable = true := by simpa using hk
    subst hk
    cases h with
    | @mk _ s t hs ht =>
      rw [AtomSet.upFrom_filter]
      have hdraw := hbase.seek rfl rfl key hs
      rcases hup : AtomSet.upFrom key items with _ | ⟨x, rest⟩
      · rw [hup] at hdraw
        obtain ⟨s', _, hseek, hs'⟩ := hdraw.cases_nil
        exact draws_nil (hseek.onFst.bind .pure) (.mk hs' ht)
      · rw [hup] at hdraw
        have hx : x ∈ items := (AtomSet.mem_upFrom.mp (by rw [hup]; simp : x ∈ AtomSet.upFrom key items)).1
        obtain ⟨s', hseek, hs'⟩ := hdraw.cases_cons
        obtain ⟨t', htest, ht'⟩ := htests hx ht
        cases hp : property x with
        | true =>
          rw [hp] at htest
          rw [List.filter_cons_of_pos hp]
          exact draws_cons (hseek.onFst.bind (htest.onSnd.bind .pure)) (.mk hs' ht')
        | false =>
          rw [hp] at htest
          rw [List.filter_cons_of_neg (by simp [hp])]
          obtain ⟨u, rest', hpull, hu⟩ := draws_pull hbase htests hs' ht'
          exact ⟨u, rest', hseek.onFst.bind (htest.onSnd.bind hpull), hu⟩
  suffix h := by
    cases h with
    | mk hs ht => exact (hbase.suffix hs).filter property
  capacity h := by
    cases h with
    | mk hs ht => exact Nat.le_trans (List.length_filter_le _ _) (hbase.capacity hs)
  isOrdered h := by
    cases h with
    | mk hs ht => exact hbase.isOrdered hs
  isRandomAccess h := by
    cases h with
    | mk hs ht => exact congr (congrArg and (hbase.isOrdered hs)) (hbase.isRandomAccess hs)
  ascending ho := (hbase.ascending ho).filter _

end Filter

namespace MapEach

variable {σ : Type} {base : Navigation σ} {image : AtomId → Metered (Option AtomId)} {f : AtomId → Option AtomId}
  {items : List AtomId} {ordered seekable : Bool} {R : List AtomId → σ → Prop}

/-- What is to come from a mapping is the images of what is to come from the base. -/
inductive Rests (R : List AtomId → σ → Prop) (f : AtomId → Option AtomId) : List AtomId → σ → Prop
  | mk {rest : List AtomId} {s : σ} (hs : R rest s) : Rests R f (rest.filterMap f) s

private theorem draws_pullImage (hbase : base.forward.Yields items ordered seekable R)
    (himage : ∀ x ∈ items, (image x).answer = .ok (f x)) {fuel : Nat} {rest : List AtomId} {s : σ}
    (hfuel : rest.length < fuel) (hs : R rest s) :
    Draws (pullImage base image fuel) (Rests R f) s (rest.filterMap f) := by
  -- the fuel covers what is to come from the base, and every turn maps one handle
  induction fuel generalizing rest s with
  | zero => omega
  | succ fuel ih =>
    cases rest with
    | nil =>
      obtain ⟨s', _, hnext, hs'⟩ := (hbase.pull hs).cases_nil
      exact draws_nil (hnext.bind .pure) (.mk hs')
    | cons x rest =>
      have himage := himage x ((hbase.suffix hs).subset (by simp))
      obtain ⟨s', hnext, hs'⟩ := (hbase.pull hs).cases_cons
      cases hf : f x with
      | some y =>
        rw [hf] at himage
        rw [List.filterMap_cons_some hf]
        exact draws_cons (hnext.bind (Move.Gives.bind (.lift himage) .pure)) (.mk hs')
      | none =>
        rw [hf] at himage
        rw [List.filterMap_cons_none hf]
        obtain ⟨t, rest', hpull, ht⟩ := ih (by simpa using hfuel) hs'
        exact ⟨t, rest', hnext.bind (Move.Gives.bind (.lift himage) hpull), ht⟩

/-- A mapping yields the images of the handles of the base, in their order. -/
theorem yields (hbase : base.forward.Yields items ordered seekable R)
    (himage : ∀ x ∈ items, (image x).answer = .ok (f x)) :
    (producer base image).Yields (items.filterMap f) false false (Rests R f) where
  pull h := by
    cases h with
    | mk hs =>
      obtain ⟨t, rest', hpull, ht⟩ := draws_pullImage hbase himage (Nat.lt_succ_of_le (hbase.length_le hs)) hs
      exact ⟨t, rest', Move.Gives.read.bind hpull, ht⟩
  rewind h := by
    cases h with
    | mk hs =>
      obtain ⟨s', hrewind, hs'⟩ := hbase.rewind hs
      exact ⟨s', hrewind, .mk hs'⟩
  seek ho := by simp at ho
  suffix h := by
    cases h with
    | mk hs => exact (hbase.suffix hs).filterMap f
  capacity h := by
    cases h with
    | mk hs => exact Nat.le_trans (List.length_filterMap_le _ _) (hbase.capacity hs)
  isOrdered _ := rfl
  isRandomAccess _ := rfl
  ascending ho := by simp at ho

end MapEach

end HyperQuery
