import HyperQuery.Cursor.Union
import HyperQuery.Proofs.Cursor.Basic
import HyperQuery.Proofs.Exploration

/-!
# Unions yield the handles of both sides

If both sides are ordered, the union yields their handles in ascending order: what is to come is what is to come from
either side together with its head (`Merged`). A side whose head is `none` has come to its end, wherever its cursor
stands. Otherwise the union yields the left side without repeats and then what the right side adds (`Concatenated`).
-/

namespace HyperQuery

namespace UnionState

open AtomSet (ofList mem_ofList upFrom)

variable {σ τ : Type} {l : Navigation σ} {r : Navigation τ} {as bs : List AtomId}
  {R : List AtomId → σ → Prop} {S : List AtomId → τ → Prop}

private theorem gives_onLeft {α : Type} {m : Move σ α} {s s' : σ} {t : τ} {mode : UnionMode} {x : α}
    (h : m.Gives s x s') : (onLeft m : Move (UnionState σ τ) α).Gives ⟨s, t, mode⟩ x ⟨s', t, mode⟩ :=
  Move.Gives.onPart h

private theorem gives_onRight {α : Type} {m : Move τ α} {s : σ} {t t' : τ} {mode : UnionMode} {x : α}
    (h : m.Gives t x t') : (onRight m : Move (UnionState σ τ) α).Gives ⟨s, t, mode⟩ x ⟨s, t', mode⟩ :=
  Move.Gives.onPart h

private theorem gives_setMode {s : σ} {t : τ} {mode mode' : UnionMode} :
    (setMode mode' : Move (UnionState σ τ) Unit).Gives ⟨s, t, mode⟩ () ⟨s, t, mode'⟩ := .update

/-! ### Merging -/

/-- What is to come from a side, its head included. A side without a head has come to its end. -/
def behind (head : Option AtomId) (rest : List AtomId) : List AtomId :=
  match head with
  | some x => x :: rest
  | none => []

private theorem behind_head? {xs rest : List AtomId} (h : xs ≠ [] → rest = xs.tail) : behind xs.head? rest = xs := by
  cases xs with
  | nil => rfl
  | cons x xs => rw [h (by simp)]; rfl

/-- The handles of both sides in ascending order. -/
def merged (as bs : List AtomId) : List AtomId := ofList (as ++ bs)

theorem mem_merged {z : AtomId} : z ∈ merged as bs ↔ z ∈ as ∨ z ∈ bs := by
  rw [merged, mem_ofList, List.mem_append]

theorem ascending_merged : (merged as bs).Pairwise (· < ·) := AtomSet.sorted_ofList _

/-- The merging unions of two sides, with what is to come. -/
inductive Merged (as bs : List AtomId) (R : List AtomId → σ → Prop) (S : List AtomId → τ → Prop) :
    List AtomId → UnionState σ τ → Prop
  | fresh {s : σ} {t : τ} {x y : Option AtomId} (hs : R as s) (ht : S bs t) :
    Merged as bs R S (merged as bs) ⟨s, t, .merge x y false⟩
  | primed {s : σ} {t : τ} {x y : Option AtomId} {xs ys rest : List AtomId} (hs : R xs s) (ht : S ys t)
    (hxs : behind x xs <:+ as) (hys : behind y ys <:+ bs) (hrest : rest <:+ merged as bs)
    (hmem : ∀ z, z ∈ rest ↔ z ∈ behind x xs ∨ z ∈ behind y ys) : Merged as bs R S rest ⟨s, t, .merge x y true⟩

/-- Yielding the least handle leaves the others. -/
private theorem exists_rest_of_min {x : AtomId} {xs ys xs' ys' rest : List AtomId} (hrest : rest <:+ merged as bs)
    (hmem : ∀ z, z ∈ rest ↔ z ∈ xs ∨ z ∈ ys) (hx : x ∈ xs ∨ x ∈ ys) (hmin : ∀ z, z ∈ xs ∨ z ∈ ys → x ≤ z)
    (hleft : ∀ z, z ∈ xs' ∨ z ∈ ys' ↔ (z ∈ xs ∨ z ∈ ys) ∧ z ≠ x) :
    ∃ rest', rest = x :: rest' ∧ rest' <:+ merged as bs ∧ ∀ z, z ∈ rest' ↔ z ∈ xs' ∨ z ∈ ys' := by
  obtain ⟨rest', rfl, hrest'⟩ := AtomSet.exists_eq_cons_of_min (ascending_merged.sublist hrest.sublist)
    ((hmem x).mpr hx) fun y hy => hmin y ((hmem y).mp hy)
  refine ⟨rest', rfl, (List.suffix_cons x rest').trans hrest, fun z => ?_⟩
  rw [hrest', hmem, hleft]

/-- Yielding the head of one side, which is below everything on the other side. -/
private theorem exists_rest_of_head {x : AtomId} {xs ys rest : List AtomId} (hrest : rest <:+ merged as bs)
    (hmem : ∀ z, z ∈ rest ↔ z ∈ x :: xs ∨ z ∈ ys) (hx : ∀ z ∈ xs, x < z) (hlt : ∀ z ∈ ys, x < z) :
    ∃ rest', rest = x :: rest' ∧ rest' <:+ merged as bs ∧ ∀ z, z ∈ rest' ↔ z ∈ xs ∨ z ∈ ys := by
  refine exists_rest_of_min hrest hmem (by simp) ?_ fun z => ?_
  · rintro z (hz | hz)
    · rcases List.mem_cons.mp hz with rfl | hz
      · exact Nat.le_refl z
      · exact Nat.le_of_lt (hx z hz)
    · exact Nat.le_of_lt (hlt z hz)
  · constructor
    · rintro (hz | hz)
      · exact ⟨.inl (List.mem_cons_of_mem x hz), Nat.ne_of_gt (hx z hz)⟩
      · exact ⟨.inr hz, Nat.ne_of_gt (hlt z hz)⟩
    · rintro ⟨hz | hz, hne⟩
      · exact .inl ((List.mem_cons.mp hz).resolve_left hne)
      · exact .inr hz

variable {seekable seekable' : Bool}

private theorem draws_takeLeft (hl : l.forward.Yields as true seekable R) {s : σ} {t : τ} {x : AtomId}
    {y : Option AtomId} {xs ys rest : List AtomId} {mode : UnionMode} (hs : R xs s) (ht : S ys t)
    (hxs : x :: xs <:+ as) (hys : behind y ys <:+ bs) (hrest : rest <:+ merged as bs)
    (hmem : ∀ z, z ∈ rest ↔ z ∈ x :: xs ∨ z ∈ behind y ys) (hlt : ∀ z ∈ behind y ys, x < z) :
    Draws (takeLeft l x y) (Merged as bs R S) ⟨s, t, mode⟩ rest := by
  have hx : ∀ z ∈ xs, x < z := fun z hz => AtomSet.lt_of_mem_of_suffix (hl.ascending rfl) hxs hz
  obtain ⟨rest', rfl, hrest', hmem'⟩ := exists_rest_of_head hrest hmem hx hlt
  obtain ⟨s', xs', hnext, hs', hxs'⟩ := hl.pull hs
  have hbehind := behind_head? hxs'
  refine draws_cons ((gives_onLeft hnext).bind (gives_setMode.bind .pure)) (.primed hs' ht ?_ hys hrest' ?_)
  · rw [hbehind]
    exact (List.suffix_cons x xs).trans hxs
  · rwa [hbehind]

private theorem draws_takeRight (hr : r.forward.Yields bs true seekable' S) {s : σ} {t : τ} {x : Option AtomId}
    {y : AtomId} {xs ys rest : List AtomId} {mode : UnionMode} (hs : R xs s) (ht : S ys t)
    (hxs : behind x xs <:+ as) (hys : y :: ys <:+ bs) (hrest : rest <:+ merged as bs)
    (hmem : ∀ z, z ∈ rest ↔ z ∈ behind x xs ∨ z ∈ y :: ys) (hlt : ∀ z ∈ behind x xs, y < z) :
    Draws (takeRight r x y) (Merged as bs R S) ⟨s, t, mode⟩ rest := by
  have hy : ∀ z ∈ ys, y < z := fun z hz => AtomSet.lt_of_mem_of_suffix (hr.ascending rfl) hys hz
  obtain ⟨rest', rfl, hrest', hmem'⟩ := exists_rest_of_head hrest (fun z => (hmem z).trans or_comm) hy hlt
  obtain ⟨t', ys', hnext, ht', hys'⟩ := hr.pull ht
  have hbehind := behind_head? hys'
  refine draws_cons ((gives_onRight hnext).bind (gives_setMode.bind .pure)) (.primed hs ht' hxs ?_ hrest' ?_)
  · rw [hbehind]
    exact (List.suffix_cons y ys).trans hys
  · intro z
    rw [hbehind, hmem' z, or_comm]

private theorem draws_takeBoth (hl : l.forward.Yields as true seekable R) (hr : r.forward.Yields bs true seekable' S)
    {s : σ} {t : τ} {x : AtomId} {xs ys rest : List AtomId} {mode : UnionMode} (hs : R xs s) (ht : S ys t)
    (hxs : x :: xs <:+ as) (hys : x :: ys <:+ bs) (hrest : rest <:+ merged as bs)
    (hmem : ∀ z, z ∈ rest ↔ z ∈ x :: xs ∨ z ∈ x :: ys) :
    Draws (takeBoth l r x) (Merged as bs R S) ⟨s, t, mode⟩ rest := by
  have hx : ∀ z ∈ xs, x < z := fun z hz => AtomSet.lt_of_mem_of_suffix (hl.ascending rfl) hxs hz
  have hy : ∀ z ∈ ys, x < z := fun z hz => AtomSet.lt_of_mem_of_suffix (hr.ascending rfl) hys hz
  obtain ⟨rest', rfl, hrest', hmem'⟩ : ∃ rest', rest = x :: rest' ∧ rest' <:+ merged as bs ∧
      ∀ z, z ∈ rest' ↔ z ∈ xs ∨ z ∈ ys := by
    refine exists_rest_of_min hrest hmem (by simp) ?_ fun z => ?_
    · intro z hz
      simp only [List.mem_cons] at hz
      rcases hz with (rfl | hz) | (rfl | hz)
      · exact Nat.le_refl z
      · exact Nat.le_of_lt (hx z hz)
      · exact Nat.le_refl z
      · exact Nat.le_of_lt (hy z hz)
    · constructor
      · rintro (hz | hz)
        · exact ⟨.inl (List.mem_cons_of_mem x hz), Nat.ne_of_gt (hx z hz)⟩
        · exact ⟨.inr (List.mem_cons_of_mem x hz), Nat.ne_of_gt (hy z hz)⟩
      · rintro ⟨hz, hne⟩
        exact hz.imp (fun hz => (List.mem_cons.mp hz).resolve_left hne) fun hz => (List.mem_cons.mp hz).resolve_left hne
  obtain ⟨s', xs', hnext, hs', hxs'⟩ := hl.pull hs
  obtain ⟨t', ys', hnext', ht', hys'⟩ := hr.pull ht
  have hbehind := behind_head? hxs'
  have hbehind' := behind_head? hys'
  refine draws_cons ((gives_onLeft hnext).bind (gives_setMode.bind ((gives_onRight hnext').bind
    (gives_setMode.bind .pure)))) (.primed hs' ht' ?_ ?_ hrest' ?_)
  · rw [hbehind]
    exact (List.suffix_cons x xs).trans hxs
  · rw [hbehind']
    exact (List.suffix_cons x ys).trans hys
  · rwa [hbehind, hbehind']

/-- The smaller head is yielded. -/
private theorem draws_pullMerged (hl : l.forward.Yields as true seekable R) (hr : r.forward.Yields bs true seekable' S)
    {s : σ} {t : τ} {x y : Option AtomId} {xs ys rest : List AtomId} (hs : R xs s) (ht : S ys t)
    (hxs : behind x xs <:+ as) (hys : behind y ys <:+ bs) (hrest : rest <:+ merged as bs)
    (hmem : ∀ z, z ∈ rest ↔ z ∈ behind x xs ∨ z ∈ behind y ys) :
    Draws (pullMerged l r x y) (Merged as bs R S) ⟨s, t, .merge x y true⟩ rest := by
  cases x with
  | none =>
    cases y with
    | none =>
      have hnil : rest = [] := List.eq_nil_iff_forall_not_mem.mpr fun z hz => by simpa [behind] using (hmem z).mp hz
      rw [hnil] at hrest hmem ⊢
      exact draws_nil .pure (.primed hs ht hxs hys hrest hmem)
    | some y => exact draws_takeRight hr hs ht hxs hys hrest hmem (by simp [behind])
  | some x =>
    cases y with
    | none => exact draws_takeLeft hl hs ht hxs hys hrest hmem (by simp [behind])
    | some y =>
      have hlt : ∀ {u v : AtomId} {us is : List AtomId}, is.Pairwise (· < ·) → v :: us <:+ is → u < v →
          ∀ z ∈ v :: us, u < z := by
        intro u v us is his hus huv z hz
        rcases List.mem_cons.mp hz with rfl | hz
        · exact huv
        · exact Nat.lt_trans huv (AtomSet.lt_of_mem_of_suffix his hus hz)
      unfold pullMerged
      rcases hcompare : compare x y with _ | _ | _ <;> simp only [hcompare]
      · exact draws_takeLeft hl hs ht hxs hys hrest hmem (hlt (hr.ascending rfl) hys (Nat.compare_eq_lt.mp hcompare))
      · have hxy := Nat.compare_eq_eq.mp hcompare
        subst hxy
        exact draws_takeBoth hl hr hs ht hxs hys hrest hmem
      · exact draws_takeRight hr hs ht hxs hys hrest hmem (hlt (hl.ascending rfl) hxs (Nat.compare_eq_gt.mp hcompare))

private theorem draws_pull_primed (hl : l.forward.Yields as true seekable R)
    (hr : r.forward.Yields bs true seekable' S) {s : σ} {t : τ} {x y : Option AtomId} {xs ys rest : List AtomId}
    (hs : R xs s) (ht : S ys t) (hxs : behind x xs <:+ as) (hys : behind y ys <:+ bs) (hrest : rest <:+ merged as bs)
    (hmem : ∀ z, z ∈ rest ↔ z ∈ behind x xs ∨ z ∈ behind y ys) :
    Draws (pull l r) (Merged as bs R S) ⟨s, t, .merge x y true⟩ rest := by
  obtain ⟨u, rest', hpull, hu⟩ := draws_pullMerged hl hr hs ht hxs hys hrest hmem
  exact ⟨u, rest', Move.Gives.read.bind (Move.Gives.bind .pure hpull), hu⟩

/-- The union of two ordered cursors yields the handles of both in ascending order. -/
theorem merge_yields (hl : l.forward.Yields as true seekable R) (hr : r.forward.Yields bs true seekable' S) :
    (producer l r).Yields (merged as bs) true (seekable && seekable') (Merged as bs R S) where
  pull h := by
    cases h with
    | fresh hs ht =>
      obtain ⟨s', xs', hnext, hs', hxs'⟩ := hl.pull hs
      obtain ⟨t', ys', hnext', ht', hys'⟩ := hr.pull ht
      have hbehind := behind_head? hxs'
      have hbehind' := behind_head? hys'
      have hleft : behind as.head? xs' <:+ as := by simp [hbehind]
      have hright : behind bs.head? ys' <:+ bs := by simp [hbehind']
      obtain ⟨u, rest', hpull, hu⟩ := draws_pullMerged hl hr hs' ht' hleft hright (List.suffix_refl _)
        fun z => by rw [hbehind, hbehind']; exact mem_merged
      refine ⟨u, rest', Move.Gives.read.bind (Move.Gives.bind (x := (as.head?, bs.head?)) ?_ hpull), hu⟩
      exact (gives_onLeft hnext).bind (gives_setMode.bind ((gives_onRight hnext').bind (gives_setMode.bind .pure)))
    | primed hs ht hxs hys hrest hmem => exact draws_pull_primed hl hr hs ht hxs hys hrest hmem
  rewind h := by
    cases h with
    | fresh hs ht | primed hs ht _ _ _ _ =>
      obtain ⟨s', hrewind, hs'⟩ := hl.rewind hs
      obtain ⟨t', hrewind', ht'⟩ := hr.rewind ht
      exact ⟨_, (gives_onLeft hrewind).bind ((gives_onRight hrewind').bind (Move.Gives.read.bind gives_setMode)),
        .fresh hs' ht'⟩
  seek _ hk rest u key h := by
    rw [Bool.and_eq_true] at hk
    obtain ⟨rfl, rfl⟩ := hk
    obtain ⟨s, t, x, y, primed, xs, ys, rfl, hs, ht⟩ : ∃ s t x y primed xs ys,
        u = ⟨s, t, .merge x y primed⟩ ∧ R xs s ∧ S ys t := by
      cases h with
      | fresh hs ht | primed hs ht _ _ _ _ => exact ⟨_, _, _, _, _, _, _, rfl, hs, ht⟩
    obtain ⟨s', xs', hseek, hs', hxs'⟩ := hl.seek rfl rfl key hs
    obtain ⟨t', ys', hseek', ht', hys'⟩ := hr.seek rfl rfl key ht
    have hbehind := behind_head? hxs'
    have hbehind' := behind_head? hys'
    have hrest : upFrom key (merged as bs) <:+ merged as bs := AtomSet.upFrom_suffix ascending_merged
    obtain ⟨u, rest', hpull, hu⟩ := draws_pull_primed hl hr hs' ht'
      (by rw [hbehind]; exact AtomSet.upFrom_suffix (hl.ascending rfl))
      (by rw [hbehind']; exact AtomSet.upFrom_suffix (hr.ascending rfl)) hrest
      fun z => by
        rw [hbehind, hbehind', AtomSet.mem_upFrom, AtomSet.mem_upFrom, AtomSet.mem_upFrom, mem_merged, or_and_right]
    refine ⟨u, rest', Move.Gives.read.bind ?_, hu⟩
    exact (gives_onLeft hseek).bind (gives_setMode.bind ((gives_onRight hseek').bind (gives_setMode.bind hpull)))
  suffix h := by
    cases h with
    | fresh _ _ => exact List.suffix_refl _
    | primed _ _ _ _ hrest _ => exact hrest
  capacity {rest u} h := by
    have hlength : (merged as bs).length ≤ as.length + bs.length := by
      rw [← List.length_append]
      exact (AtomSet.nodup_of_ascending ascending_merged).length_le_of_subset fun z hz => mem_ofList.mp hz
    refine Nat.le_trans hlength (Nat.le_trans ?_ (Nat.le_add_right _ 2))
    cases h with
    | fresh hs ht | primed hs ht _ _ _ _ => exact Nat.add_le_add (hl.capacity hs) (hr.capacity ht)
  isOrdered h := by
    cases h with
    | fresh _ _ | primed _ _ _ _ _ _ => rfl
  isRandomAccess h := by
    cases h with
    | fresh hs ht | primed hs ht _ _ _ _ =>
      exact congr (congrArg and (hl.isRandomAccess hs)) (hr.isRandomAccess ht)
  ascending _ := ascending_merged

/-! ### One side after the other -/

/-- The handles of the first side without repeats, and then those that the second side adds. -/
def appended (as bs : List AtomId) : List AtomId := fresh [] as ++ fresh as bs

theorem mem_appended {z : AtomId} : z ∈ appended as bs ↔ z ∈ as ∨ z ∈ bs := by
  by_cases hz : z ∈ as <;> simp [appended, mem_fresh, hz]

theorem nodup_appended : (appended as bs).Nodup := by
  refine List.nodup_append.mpr ⟨nodup_fresh, nodup_fresh, fun x hx y hy hxy => ?_⟩
  subst hxy
  exact (mem_fresh.mp hy).2 (mem_fresh.mp hx).1

/-- The unions of one side after the other, with what is to come. -/
inductive Concatenated (as bs : List AtomId) (R : List AtomId → σ → Prop) (S : List AtomId → τ → Prop) :
    List AtomId → UnionState σ τ → Prop
  | left {s : σ} {t : τ} {xs yielded : List AtomId} (hs : R xs s) (ht : S bs t)
    (hall : ∀ z, z ∈ as ↔ z ∈ yielded ∨ z ∈ xs) (hrest : fresh yielded xs <:+ fresh [] as) :
    Concatenated as bs R S (fresh yielded xs ++ fresh as bs) ⟨s, t, .concat yielded false⟩
  | right {s : σ} {t : τ} {xs ys yielded : List AtomId} (hs : R xs s) (ht : S ys t)
    (hall : ∀ z ∈ bs, z ∈ yielded ∨ z ∈ ys) (hrest : fresh yielded ys <:+ appended as bs) :
    Concatenated as bs R S (fresh yielded ys) ⟨s, t, .concat yielded true⟩

variable {ordered ordered' : Bool}

/-- A handle that was yielded, or is read now, has been yielded or is among the others. -/
private theorem or_of_mem_cons {y z : AtomId} {ys yielded : List AtomId} (hy : y ∈ yielded)
    (hz : z ∈ yielded ∨ z ∈ y :: ys) : z ∈ yielded ∨ z ∈ ys := by
  rcases hz with hz | hz
  · exact .inl hz
  · rcases List.mem_cons.mp hz with rfl | hz
    · exact .inl hy
    · exact .inr hz

/-- Reading the second side skips what was yielded before. -/
private theorem draws_pullNew_right (hr : r.forward.Yields bs ordered' seekable' S) {fuel : Nat} {s : σ} {t : τ}
    {xs ys yielded : List AtomId} (hfuel : ys.length < fuel) (hs : R xs s) (ht : S ys t)
    (hall : ∀ z ∈ bs, z ∈ yielded ∨ z ∈ ys) (hrest : fresh yielded ys <:+ appended as bs) :
    Draws (pullNew l r fuel yielded true) (Concatenated as bs R S) ⟨s, t, .concat yielded true⟩ (fresh yielded ys) := by
  -- the fuel covers what is to come from the second side, of which every turn reads one handle
  induction fuel generalizing ys t with
  | zero => omega
  | succ fuel ih =>
    cases ys with
    | nil =>
      -- at the end everything on the second side has been yielded, wherever its cursor stands
      obtain ⟨t', ys', hnext, ht'⟩ := (hr.pull ht).cases_nil
      have hyielded : ∀ z ∈ bs, z ∈ yielded := fun z hz => (hall z hz).resolve_right (by simp)
      have hnone : fresh yielded ys' = [] := by
        refine List.eq_nil_iff_forall_not_mem.mpr fun z hz => ?_
        obtain ⟨hz, hnew⟩ := mem_fresh.mp hz
        exact hnew (hyielded z ((hr.suffix ht').subset hz))
      refine draws_nil ((gives_onRight hnext).bind .pure) (.right hs ht' (fun z hz => .inl (hyielded z hz)) ?_)
      rw [hnone]
      exact List.nil_suffix
    | cons y ys =>
      obtain ⟨t', hnext, ht'⟩ := (hr.pull ht).cases_cons
      by_cases hy : y ∈ yielded
      · rw [fresh_cons_of_mem hy] at hrest ⊢
        obtain ⟨u, rest, hpull, hu⟩ :=
          ih (by simpa using hfuel) ht' (fun z hz => or_of_mem_cons hy (hall z hz)) hrest
        refine ⟨u, rest, (gives_onRight hnext).bind ?_, hu⟩
        simp only [List.contains_iff_mem, hy, if_true]
        exact hpull
      · have hstep : (pullNew l r (fuel + 1) yielded true).Gives ⟨s, t, .concat yielded true⟩ (some y)
            ⟨s, t', .concat (y :: yielded) true⟩ := by
          refine (gives_onRight hnext).bind ?_
          simp only [List.contains_iff_mem, hy, if_false]
          exact gives_setMode.bind .pure
        rw [fresh_cons_of_not_mem hy] at hrest ⊢
        refine draws_cons hstep (.right hs ht' (fun z hz => ?_) ((List.suffix_cons _ _).trans hrest))
        exact or_of_mem_cons List.mem_cons_self ((hall z hz).imp_left (List.mem_cons_of_mem y))

/-- Reading the first side skips its repeats, and at its end the second side is begun. -/
private theorem draws_pullNew_left (hl : l.forward.Yields as ordered seekable R)
    (hr : r.forward.Yields bs ordered' seekable' S) {fuel : Nat} {s : σ} {t : τ} {xs yielded : List AtomId}
    (hfuel : xs.length + bs.length + 1 < fuel) (hs : R xs s) (ht : S bs t)
    (hall : ∀ z, z ∈ as ↔ z ∈ yielded ∨ z ∈ xs) (hrest : fresh yielded xs <:+ fresh [] as) :
    Draws (pullNew l r fuel yielded false) (Concatenated as bs R S) ⟨s, t, .concat yielded false⟩
      (fresh yielded xs ++ fresh as bs) := by
  -- as on the second side, and one turn more to go over to it
  induction fuel generalizing xs s with
  | zero => omega
  | succ fuel ih =>
    cases xs with
    | nil =>
      obtain ⟨s', _, hnext, hs'⟩ := (hl.pull hs).cases_nil
      have hfresh : fresh as bs = fresh yielded bs := fresh_congr fun z => by rw [hall]; simp
      rw [fresh, List.nil_append, hfresh]
      have hrest : fresh yielded bs <:+ appended as bs := by
        rw [← hfresh]
        exact List.suffix_append _ _
      have hfuel : bs.length < fuel := by
        simp at hfuel
        omega
      obtain ⟨u, rest, hpull, hu⟩ := draws_pullNew_right (l := l) hr hfuel hs' ht (fun _ hz => .inr hz) hrest
      exact ⟨u, rest, (gives_onLeft hnext).bind (gives_setMode.bind hpull), hu⟩
    | cons x xs =>
      obtain ⟨s', hnext, hs'⟩ := (hl.pull hs).cases_cons
      by_cases hx : x ∈ yielded
      · rw [fresh_cons_of_mem hx] at hrest ⊢
        have hall' : ∀ z, z ∈ as ↔ z ∈ yielded ∨ z ∈ xs := fun z => by
          rw [hall]
          exact ⟨or_of_mem_cons hx, Or.imp_right (List.mem_cons_of_mem x)⟩
        obtain ⟨u, rest, hpull, hu⟩ := ih (by simp at hfuel; omega) hs' hall' hrest
        refine ⟨u, rest, (gives_onLeft hnext).bind ?_, hu⟩
        simp only [List.contains_iff_mem, hx, if_true]
        exact hpull
      · have hstep : (pullNew l r (fuel + 1) yielded false).Gives ⟨s, t, .concat yielded false⟩ (some x)
            ⟨s', t, .concat (x :: yielded) false⟩ := by
          refine (gives_onLeft hnext).bind ?_
          simp only [List.contains_iff_mem, hx, if_false]
          exact gives_setMode.bind .pure
        rw [fresh_cons_of_not_mem hx] at hrest ⊢
        refine draws_cons hstep (.left hs' ht (fun z => ?_) ((List.suffix_cons _ _).trans hrest))
        rw [hall, List.mem_cons, List.mem_cons, or_assoc, or_left_comm]

/-- The union of two cursors yields the first side without repeats, and then what the second side adds. -/
theorem concat_yields (hl : l.forward.Yields as ordered seekable R) (hr : r.forward.Yields bs ordered' seekable' S) :
    (producer l r).Yields (appended as bs) false false (Concatenated as bs R S) where
  pull h := by
    cases h with
    | @left s t xs yielded hs ht hall hrest =>
      have hfuel : xs.length + bs.length + 1 < l.capacity s + r.capacity t + 2 :=
        Nat.succ_lt_succ (Nat.lt_succ_of_le (Nat.add_le_add (hl.length_le hs) (hr.capacity ht)))
      obtain ⟨u, rest, hpull, hu⟩ := draws_pullNew_left hl hr hfuel hs ht hall hrest
      exact ⟨u, rest, Move.Gives.read.bind hpull, hu⟩
    | @right s t xs ys yielded hs ht hall hrest =>
      have hfuel : ys.length < l.capacity s + r.capacity t + 2 :=
        Nat.lt_succ_of_le (Nat.le_trans (hr.length_le ht) (Nat.le_trans (Nat.le_add_left _ _) (Nat.le_succ _)))
      obtain ⟨u, rest, hpull, hu⟩ := draws_pullNew_right (l := l) hr hfuel hs ht hall hrest
      exact ⟨u, rest, Move.Gives.read.bind hpull, hu⟩
  rewind h := by
    cases h with
    | left hs ht _ _ | right hs ht _ _ =>
      obtain ⟨s', hrewind, hs'⟩ := hl.rewind hs
      obtain ⟨t', hrewind', ht'⟩ := hr.rewind ht
      exact ⟨_, (gives_onLeft hrewind).bind ((gives_onRight hrewind').bind (Move.Gives.read.bind gives_setMode)),
        .left hs' ht' (by simp) (List.suffix_refl _)⟩
  seek ho := by simp at ho
  suffix h := by
    cases h with
    | left _ _ _ hrest =>
      obtain ⟨before, hbefore⟩ := hrest
      exact ⟨before, by rw [← List.append_assoc, hbefore]; rfl⟩
    | right _ _ _ hrest => exact hrest
  capacity {rest u} h := by
    have hlength : (appended as bs).length ≤ as.length + bs.length := by
      rw [← List.length_append]
      exact nodup_appended.length_le_of_subset fun z hz => List.mem_append.mpr (mem_appended.mp hz)
    refine Nat.le_trans hlength (Nat.le_trans ?_ (Nat.le_add_right _ 2))
    cases h with
    | left hs ht _ _ | right hs ht _ _ => exact Nat.add_le_add (hl.capacity hs) (hr.capacity ht)
  isOrdered h := by
    cases h with
    | left _ _ _ _ | right _ _ _ _ => rfl
  isRandomAccess h := by
    cases h with
    | left _ _ _ _ | right _ _ _ _ => rfl
  ascending ho := by simp at ho

/-! ### Unions that have just been opened -/

/-- What a union lists: the handles of both sides in ascending order if both sides are ordered, and otherwise one side
after the other. -/
def listed (ordered : Bool) (as bs : List AtomId) : List AtomId := if ordered then merged as bs else appended as bs

theorem mem_listed {both : Bool} {z : AtomId} : z ∈ listed both as bs ↔ z ∈ as ∨ z ∈ bs := by
  cases both with
  | true => exact mem_merged
  | false => exact mem_appended

theorem nodup_listed {both : Bool} : (listed both as bs).Nodup := by
  cases both with
  | true => exact AtomSet.nodup_of_ascending ascending_merged
  | false => exact nodup_appended

theorem exists_yields (hl : l.forward.Yields as ordered seekable R) (hr : r.forward.Yields bs ordered' seekable' S)
    {s : σ} {t : τ} (hs : R as s) (ht : S bs t) :
    ∃ Q, (producer l r).Yields (listed (ordered && ordered') as bs) (ordered && ordered')
      (ordered && ordered' && (seekable && seekable')) Q ∧
        Q (listed (ordered && ordered') as bs) (start l r s t) := by
  have hleft : l.isOrdered s = ordered := hl.isOrdered hs
  have hright : r.isOrdered t = ordered' := hr.isOrdered ht
  rw [start, hleft, hright]
  cases both : ordered && ordered' with
  | true =>
    obtain ⟨rfl, rfl⟩ := Bool.and_eq_true_iff.mp both
    rw [Bool.true_and]
    exact ⟨_, merge_yields hl hr, .fresh hs ht⟩
  | false => exact ⟨_, concat_yields hl hr, .left hs ht (by simp) (List.suffix_refl _)⟩

end UnionState

end HyperQuery
