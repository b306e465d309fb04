import HyperQuery.Cursor.Intersection
import HyperQuery.Proofs.Cursor.Basic

/-!
# Intersections yield the common handles

Both intersections bring the two sides together in the same way: the side with the smaller handle catches up with the
other one (`meet`). Catching up leaves out nothing that is not below the other handle (`CatchesUp`), whether it seeks
or reads on, and so the common handles of what is left stay the same (`draws_meet`).
-/

namespace HyperQuery.Intersection

open AtomSet (common mem_common upFrom)

variable {σ τ : Type} {l : Navigation σ} {r : Navigation τ} {as bs : List AtomId}
  {R : List AtomId → σ → Prop} {S : List AtomId → τ → Prop}

/-- Lets the side with the smaller handle catch up until both handles are equal. -/
def meet (left : AtomId → Move σ (Option AtomId)) (right : AtomId → Move τ (Option AtomId)) :
    Nat → AtomId → AtomId → Move (σ × τ) (Option AtomId)
  | 0, _, _ => pure none
  | fuel + 1, x, y =>
    match compare x y with
    | .eq => pure (some x)
    | .lt => do
      match ← Move.onFst (left y) with
      | some x => meet left right fuel x y
      | none => return none
    | .gt => do
      match ← Move.onSnd (right x) with
      | some y => meet left right fuel x y
      | none => return none

theorem align_eq_meet (fuel : Nat) (x y : AtomId) : align l r fuel x y = meet l.seekFrom r.seekFrom fuel x y := by
  induction fuel generalizing x y with
  | zero => rfl
  | succ fuel ih =>
    simp only [align, meet, ih] <;> rfl

theorem advance_eq_meet (fuel : Nat) (x y : AtomId) :
    advance l r fuel x y = meet (fun _ => l.next) (fun _ => r.next) fuel x y := by
  induction fuel generalizing x y with
  | zero => rfl
  | succ fuel ih =>
    simp only [advance, meet, ih] <;> rfl

/-- A move, given a key above the handle that was drawn last, goes on without leaving out anything from the key on. -/
def CatchesUp (m : AtomId → Move σ (Option AtomId)) (items : List AtomId) (R : List AtomId → σ → Prop) : Prop :=
  ∀ {x rest s} (key), x < key → x :: rest <:+ items → R rest s →
    ∃ rest', Draws (m key) R s rest' ∧ rest' <:+ rest ∧ ∀ z ∈ rest, key ≤ z → z ∈ rest'

theorem catchesUp_seekFrom (h : l.forward.Yields as true true R) : CatchesUp l.seekFrom as R := by
  intro x rest s key hx hrest hR
  have hup := AtomSet.upFrom_of_lt (h.ascending rfl) hrest hx
  have hasc : rest.Pairwise (· < ·) := (h.ascending rfl).sublist ((List.suffix_cons x rest).trans hrest).sublist
  refine ⟨upFrom key rest, hup ▸ h.seek rfl rfl key hR, AtomSet.upFrom_suffix hasc, fun z hz hkey => ?_⟩
  exact AtomSet.mem_upFrom.mpr ⟨hz, hkey⟩

theorem catchesUp_next {ordered seekable : Bool} (h : l.forward.Yields as ordered seekable R) :
    CatchesUp (fun _ => l.next) as R :=
  fun _ _ _ hR => ⟨_, h.pull hR, List.suffix_refl _, fun _ hz _ => hz⟩

/-- What is to come from two sides is what is to come from both of them. -/
inductive Rests (R : List AtomId → σ → Prop) (S : List AtomId → τ → Prop) : List AtomId → σ × τ → Prop
  | mk {xs ys : List AtomId} {s : σ} {t : τ} (hs : R xs s) (ht : S ys t) : Rests R S (common xs ys) (s, t)

private theorem common_catchUp_left {x y : AtomId} {xs xs' ys : List AtomId} (ha : as.Pairwise (· < ·))
    (hxs : x :: xs <:+ as) (hxs' : xs' <:+ xs) (hys : (y :: ys).Pairwise (· < ·)) (hxy : x < y)
    (hkeep : ∀ z ∈ xs, y ≤ z → z ∈ xs') : common (x :: xs) (y :: ys) = common xs' (y :: ys) := by
  have hasc := ha.sublist hxs.sublist
  have hasc' : xs'.Pairwise (· < ·) := (List.pairwise_cons.mp hasc).2.sublist hxs'.sublist
  refine AtomSet.eq_of_mem_iff (AtomSet.ascending_common hasc) (AtomSet.ascending_common hasc') fun z => ?_
  rw [mem_common, mem_common]
  refine ⟨fun ⟨hzx, hzy⟩ => ⟨?_, hzy⟩, fun ⟨hz, hzy⟩ => ⟨List.mem_cons_of_mem _ (hxs'.subset hz), hzy⟩⟩
  have hyz : y ≤ z := by
    rcases List.mem_cons.mp hzy with rfl | hzy
    · exact Nat.le_refl z
    · exact Nat.le_of_lt ((List.pairwise_cons.mp hys).1 z hzy)
  rcases List.mem_cons.mp hzx with rfl | hzx
  · exact absurd hxy (Nat.not_lt.mpr hyz)
  · exact hkeep z hzx hyz

private theorem common_comm {xs ys : List AtomId} (hxs : xs.Pairwise (· < ·)) (hys : ys.Pairwise (· < ·)) :
    common xs ys = common ys xs :=
  AtomSet.eq_of_mem_iff (AtomSet.ascending_common hxs) (AtomSet.ascending_common hys) fun z => by
    rw [mem_common, mem_common, and_comm]

/-- Meeting draws the first common handle. -/
theorem draws_meet {left : AtomId → Move σ (Option AtomId)} {right : AtomId → Move τ (Option AtomId)}
    (ha : as.Pairwise (· < ·)) (hb : bs.Pairwise (· < ·)) (hleft : CatchesUp left as R)
    (hright : CatchesUp right bs S) {fuel : Nat} {x y : AtomId} {xs ys : List AtomId} {s : σ} {t : τ}
    (hfuel : xs.length + ys.length < fuel) (hxs : x :: xs <:+ as) (hys : y :: ys <:+ bs) (hs : R xs s)
    (ht : S ys t) : Draws (meet left right fuel x y) (Rests R S) (s, t) (common (x :: xs) (y :: ys)) := by
  -- the fuel covers what is to come from both sides, and every turn but the last one draws a handle from one of them
  induction fuel generalizing x y xs ys s t with
  | zero => omega
  | succ fuel ih =>
    have hxasc := ha.sublist hxs.sublist
    have hyasc := hb.sublist hys.sublist
    unfold meet
    rcases hcompare : compare x y with _ | _ | _
    · have hxy : x < y := Nat.compare_eq_lt.mp hcompare
      obtain ⟨xs', hdraw, hxs', hkeep⟩ := hleft y hxy hxs hs
      rw [common_catchUp_left ha hxs hxs' hyasc hxy hkeep]
      cases xs' with
      | nil =>
        obtain ⟨s', _, hm, hs'⟩ := hdraw.cases_nil
        exact draws_nil (hm.onFst.bind .pure) (.mk hs' ht)
      | cons x' xs' =>
        obtain ⟨s', hm, hs'⟩ := hdraw.cases_cons
        have hlength := hxs'.length_le
        rw [List.length_cons] at hlength
        have hrest := (hxs'.trans (List.suffix_cons x xs)).trans hxs
        obtain ⟨u, rest, hmeet, hu⟩ := ih (by omega) hrest hys hs' ht
        exact ⟨u, rest, hm.onFst.bind hmeet, hu⟩
    · have hxy : x = y := Nat.compare_eq_eq.mp hcompare
      subst hxy
      rw [AtomSet.common_cons_cons hxasc hyasc]
      exact draws_cons .pure (.mk hs ht)
    · have hyx : y < x := Nat.compare_eq_gt.mp hcompare
      obtain ⟨ys', hdraw, hys', hkeep⟩ := hright x hyx hys ht
      have hasc' : ys'.Pairwise (· < ·) := (List.pairwise_cons.mp hyasc).2.sublist hys'.sublist
      rw [common_comm hxasc hyasc, common_catchUp_left hb hys hys' hxasc hyx hkeep, common_comm hasc' hxasc]
      cases ys' with
      | nil =>
        obtain ⟨t', _, hm, ht'⟩ := hdraw.cases_nil
        rw [common_comm hxasc List.Pairwise.nil]
        exact draws_nil (hm.onSnd.bind .pure) (.mk hs ht')
      | cons y' ys' =>
        obtain ⟨t', hm, ht'⟩ := hdraw.cases_cons
        have hlength := hys'.length_le
        rw [List.length_cons] at hlength
        have hrest := (hys'.trans (List.suffix_cons y ys)).trans hys
        obtain ⟨u, rest, hmeet, hu⟩ := ih (by omega) hxs hrest hs ht'
        exact ⟨u, rest, hm.onSnd.bind hmeet, hu⟩

/-! ### The producers -/

private theorem gives_rewind {ordered seekable ordered' seekable' : Bool}
    (hl : l.forward.Yields as ordered seekable R) (hr : r.forward.Yields bs ordered' seekable' S)
    {rest : List AtomId} {u : σ × τ} (h : Rests R S rest u) :
    ∃ v, (rewind l r).Gives u () v ∧ Rests R S (common as bs) v := by
  cases h with
  | mk hs ht =>
    obtain ⟨s', hrewind, hs'⟩ := hl.rewind hs
    obtain ⟨t', hrewind', ht'⟩ := hr.rewind ht
    exact ⟨_, hrewind.onFst.bind hrewind'.onSnd, .mk hs' ht'⟩

private theorem suffix_of_rests {seekable seekable' : Bool} (hl : l.forward.Yields as true seekable R)
    (hr : r.forward.Yields bs true seekable' S) {rest : List AtomId} {u : σ × τ} (h : Rests R S rest u) :
    rest <:+ common as bs := by
  cases h with
  | mk hs ht => exact AtomSet.common_suffix (hl.ascending rfl) (hr.ascending rfl) (hl.suffix hs) (hr.suffix ht)

private theorem length_common_le {seekable seekable' : Bool} (hl : l.forward.Yields as true seekable R)
    (hr : r.forward.Yields bs true seekable' S) {rest : List AtomId} {u : σ × τ} (h : Rests R S rest u) :
    (common as bs).length ≤ min (l.capacity u.1) (r.capacity u.2) := by
  cases h with
  | mk hs ht =>
    refine Nat.le_min.mpr ⟨?_, ?_⟩
    · exact Nat.le_trans (List.length_filter_le _ _) (hl.capacity hs)
    · have hnodup : (common as bs).Nodup :=
        AtomSet.nodup_of_ascending (AtomSet.ascending_common (hl.ascending rfl))
      exact Nat.le_trans (hnodup.length_le_of_subset fun z hz => (mem_common.mp hz).2) (hr.capacity ht)

private theorem length_lt_fuel {ordered seekable ordered' seekable' : Bool}
    (hl : l.forward.Yields as ordered seekable R) (hr : r.forward.Yields bs ordered' seekable' S)
    {xs ys : List AtomId} {s : σ} {t : τ} (hs : R xs s) (ht : S ys t) : xs.length + ys.length < fuel l r (s, t) := by
  have h1 := hl.length_le hs
  have h2 := hr.length_le ht
  change xs.length ≤ l.capacity s at h1
  change ys.length ≤ r.capacity t at h2
  exact Nat.lt_succ_of_le (Nat.add_le_add h1 h2)

private theorem common_upFrom {key x : AtomId} {rest : List AtomId} (ha : as.Pairwise (· < ·))
    (hup : upFrom key as = x :: rest) : upFrom key (common as bs) = common (x :: rest) (upFrom x bs) := by
  have hasc : (x :: rest).Pairwise (· < ·) := hup ▸ ha.filter _
  refine AtomSet.eq_of_mem_iff ((ha.filter _).filter _) (AtomSet.ascending_common hasc) fun z => ?_
  rw [AtomSet.mem_upFrom, mem_common, mem_common, AtomSet.mem_upFrom, ← hup, AtomSet.mem_upFrom]
  refine ⟨fun ⟨⟨hza, hzb⟩, hkey⟩ => ⟨⟨hza, hkey⟩, hzb, ?_⟩, fun ⟨⟨hza, hkey⟩, hzb, _⟩ => ⟨⟨hza, hzb⟩, hkey⟩⟩
  have hz : z ∈ x :: rest := hup ▸ AtomSet.mem_upFrom.mpr ⟨hza, hkey⟩
  rcases List.mem_cons.mp hz with rfl | hz
  · exact Nat.le_refl z
  · exact Nat.le_of_lt ((List.pairwise_cons.mp hasc).1 z hz)

/-- The intersection by seeking yields the common handles. -/
theorem zigZag_yields (hl : l.forward.Yields as true true R) (hr : r.forward.Yields bs true true S) :
    (zigZag l r).Yields (common as bs) true true (Rests R S) where
  pull h := by
    cases h with
    | @mk xs ys s t hs ht =>
      cases xs with
      | nil =>
        obtain ⟨s', _, hnext, hs'⟩ := (hl.pull hs).cases_nil
        exact draws_nil (hnext.onFst.bind .pure) (.mk hs' ht)
      | cons x xs =>
        obtain ⟨s', hnext, hs'⟩ := (hl.pull hs).cases_cons
        cases ys with
        | nil =>
          obtain ⟨t', _, hnext', ht'⟩ := (hr.pull ht).cases_nil
          rw [show common (x :: xs) [] = [] by simp [common]]
          exact draws_nil (hnext.onFst.bind (hnext'.onSnd.bind .pure)) (.mk hs' ht')
        | cons y ys =>
          obtain ⟨t', hnext', ht'⟩ := (hr.pull ht).cases_cons
          obtain ⟨u, rest, hmeet, hu⟩ := draws_meet (hl.ascending rfl) (hr.ascending rfl) (catchesUp_seekFrom hl)
            (catchesUp_seekFrom hr) (length_lt_fuel hl hr hs' ht') (hl.suffix hs) (hr.suffix ht) hs' ht'
          rw [← align_eq_meet] at hmeet
          exact ⟨u, rest, hnext.onFst.bind (hnext'.onSnd.bind (Move.Gives.read.bind hmeet)), hu⟩
  rewind h := gives_rewind hl hr h
  seek _ _ _ _ key h := by
    cases h with
    | @mk _ _ s t hs ht =>
      have hdraw := hl.seek rfl rfl key hs
      rcases hup : upFrom key as with _ | ⟨x, xs⟩
      · rw [hup] at hdraw
        obtain ⟨s', _, hseek, hs'⟩ := hdraw.cases_nil
        rw [show upFrom key (common as bs) = [] by rw [common, AtomSet.upFrom_filter, hup]; rfl]
        exact draws_nil (hseek.onFst.bind .pure) (.mk hs' ht)
      · rw [hup] at hdraw
        obtain ⟨s', hseek, hs'⟩ := hdraw.cases_cons
        rw [common_upFrom (hl.ascending rfl) hup]
        have hdraw' := hr.seek rfl rfl x ht
        rcases hup' : upFrom x bs with _ | ⟨y, ys⟩
        · rw [hup'] at hdraw'
          obtain ⟨t', _, hseek', ht'⟩ := hdraw'.cases_nil
          rw [show common (x :: xs) [] = [] by simp [common]]
          exact draws_nil (hseek.onFst.bind (hseek'.onSnd.bind .pure)) (.mk hs' ht')
        · rw [hup'] at hdraw'
          obtain ⟨t', hseek', ht'⟩ := hdraw'.cases_cons
          obtain ⟨u, rest, hmeet, hu⟩ := draws_meet (hl.ascending rfl) (hr.ascending rfl) (catchesUp_seekFrom hl)
            (catchesUp_seekFrom hr) (length_lt_fuel hl hr hs' ht') (hup ▸ AtomSet.upFrom_suffix (hl.ascending rfl))
            (hup' ▸ AtomSet.upFrom_suffix (hr.ascending rfl)) hs' ht'
          rw [← align_eq_meet] at hmeet
          exact ⟨u, rest, hseek.onFst.bind (hseek'.onSnd.bind (Move.Gives.read.bind hmeet)), hu⟩
  suffix h := suffix_of_rests hl hr h
  capacity h := length_common_le hl hr h
  isOrdered _ := rfl
  isRandomAccess _ := rfl
  ascending _ := AtomSet.ascending_common (hl.ascending rfl)

/-- The intersection by reading side by side yields the common handles. -/
theorem sortedMerge_yields {seekable seekable' : Bool} (hl : l.forward.Yields as true seekable R)
    (hr : r.forward.Yields bs true seekable' S) :
    (sortedMerge l r).Yields (common as bs) true false (Rests R S) where
  pull h := by
    cases h with
    | @mk xs ys s t hs ht =>
      obtain ⟨s', xs', hnext, hs', hxs'⟩ := hl.pull hs
      obtain ⟨t', ys', hnext', ht', hys'⟩ := hr.pull ht
      cases xs with
      | nil => exact draws_nil (hnext.onFst.bind (hnext'.onSnd.bind .pure)) (.mk hs' ht')
      | cons x xs =>
        have hxs' : xs' = xs := hxs' (by simp)
        subst hxs'
        cases ys with
        | nil =>
          rw [show common (x :: xs') [] = [] by simp [common]]
          exact draws_nil (hnext.onFst.bind (hnext'.onSnd.bind .pure)) (.mk hs' ht')
        | cons y ys =>
          have hys' : ys' = ys := hys' (by simp)
          subst hys'
          obtain ⟨u, rest, hmeet, hu⟩ := draws_meet (hl.ascending rfl) (hr.ascending rfl) (catchesUp_next hl)
            (catchesUp_next hr) (length_lt_fuel hl hr hs' ht') (hl.suffix hs) (hr.suffix ht) hs' ht'
          rw [← advance_eq_meet] at hmeet
          exact ⟨u, rest, hnext.onFst.bind (hnext'.onSnd.bind (Move.Gives.read.bind hmeet)), hu⟩
  rewind h := gives_rewind hl hr h
  seek _ hseekable := by simp at hseekable
  suffix h := suffix_of_rests hl hr h
  capacity h := length_common_le hl hr h
  isOrdered _ := rfl
  isRandomAccess _ := rfl
  ascending _ := AtomSet.ascending_common (hl.ascending rfl)

end HyperQuery.Intersection
