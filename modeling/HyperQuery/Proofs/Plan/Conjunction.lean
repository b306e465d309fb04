import Mathlib.Data.List.Perm.Basic
import HyperQuery.Proofs.Plan.Leaf

/-!
# Plans of conjunctions

Sorting conjuncts into buckets loses none of them, and each gets into a bucket that its estimate entitles it to
(`Buckets.Sound`, `Buckets.perm_all_foldl_add`). Intersecting the ordered buckets, or choosing a base, and testing the rest
takes every bucket into account, so the plan finds what all the conjuncts match (`finds_planConjunction`).
-/

namespace HyperQuery

/-- The handle is that of a stored atom which satisfies all the conditions. -/
def Condition.MatchesAll (g : Graph) (cs : List Condition) (id : AtomId) : Prop :=
  ∃ a, g.store.atom? id = some a ∧ ∀ c ∈ cs, c.Holds g a

namespace Condition

variable {g : Graph} {cs ds : List Condition} {id : AtomId}

theorem matches_iff_of_stored {c : Condition} {a : Atom} (ha : g.store.atom? id = some a) :
    c.Matches g id ↔ c.Holds g a := by
  constructor
  · rintro ⟨a', ha', h⟩
    rw [ha] at ha'
    cases ha'
    exact h
  · exact fun h => ⟨a, ha, h⟩

theorem matchesAll_iff_of_stored {a : Atom} (ha : g.store.atom? id = some a) :
    MatchesAll g cs id ↔ ∀ c ∈ cs, c.Holds g a := by
  constructor
  · rintro ⟨a', ha', h⟩
    rw [ha] at ha'
    cases ha'
    exact h
  · exact fun h => ⟨a, ha, h⟩

theorem stored_of_matchesAll (h : MatchesAll g cs id) : ∃ a, g.store.atom? id = some a := by
  obtain ⟨a, ha, -⟩ := h
  exact ⟨a, ha⟩

theorem matchesAll_append : MatchesAll g (cs ++ ds) id ↔ MatchesAll g cs id ∧ MatchesAll g ds id := by
  constructor
  · rintro ⟨a, ha, h⟩
    exact ⟨⟨a, ha, fun c hc => h c (List.mem_append_left _ hc)⟩, a, ha, fun c hc => h c (List.mem_append_right _ hc)⟩
  · rintro ⟨⟨a, ha, h⟩, hds⟩
    refine ⟨a, ha, fun c hc => ?_⟩
    rcases List.mem_append.mp hc with hc | hc
    · exact h c hc
    · exact (matchesAll_iff_of_stored ha).mp hds c hc

theorem matchesAll_singleton {c : Condition} : MatchesAll g [c] id ↔ c.Matches g id :=
  exists_congr fun a => and_congr_right fun _ => by simp

theorem matchesAll_concat {c : Condition} :
    MatchesAll g (cs ++ [c]) = fun id => MatchesAll g cs id ∧ c.Matches g id := by
  funext id
  rw [matchesAll_append, matchesAll_singleton]

theorem matchesAll_congr (h : ∀ c, c ∈ cs ↔ c ∈ ds) : MatchesAll g cs id ↔ MatchesAll g ds id :=
  exists_congr fun a => and_congr_right fun _ => forall_congr' fun c => by rw [h]

end Condition

open Condition (Matches MatchesAll)

namespace Conjunct

/-- Every stored atom decides the condition, and the plan, if there is one, finds what matches it as the estimate
says. -/
structure Sound (g : Graph) (c : Conjunct) : Prop where
  decided : ∀ id a, g.store.atom? id = some a → c.condition.Decided g a
  serves : ∀ plan, c.plan = .ok plan → plan.Serves g c.estimate (c.condition.Matches g)

theorem perm_of_takeLeast {α : Type} {less : α → α → Bool} {xs others : List α} {x : α}
    (h : takeLeast less xs = some (x, others)) : xs.Perm (x :: others) := by
  induction xs generalizing x others with
  | nil => simp [takeLeast] at h
  | cons y rest ih =>
    unfold takeLeast at h
    split at h
    · rename_i least others' hleast
      split at h
      · cases h
        exact ((ih hleast).cons y).trans (List.Perm.swap x y others')
      · cases h
        exact List.Perm.refl _
    · cases h
      exact List.Perm.refl _

theorem eq_nil_of_takeLeast {α : Type} {less : α → α → Bool} {xs : List α} (h : takeLeast less xs = none) : xs = [] := by
  cases xs with
  | nil => rfl
  | cons x rest =>
    unfold takeLeast at h
    split at h
    · split at h <;> simp at h
    · simp at h

end Conjunct

namespace Buckets

/-- The conjuncts that the steps of the filter test. -/
def tested (b : Buckets) : List Conjunct := b.tests ++ b.probed ++ b.collected

/-- All conjuncts in the buckets. -/
def all (b : Buckets) : List Conjunct := b.seekable ++ b.ordered ++ b.tested

/-- Every conjunct is in a bucket that its estimate entitles it to. -/
structure Sound (b : Buckets) : Prop where
  seekable : ∀ c ∈ b.seekable, c.estimate.ordered = true ∧ c.estimate.randomAccess = true
  ordered : ∀ c ∈ b.ordered, c.estimate.ordered = true
  probed : ∀ c ∈ b.probed, c.estimate.ordered = false ∧ c.estimate.randomAccess = true
  tests : ∀ c ∈ b.tests, c.estimate.predicateOnly = true ∨ c.estimate.isPredicate = true
  indirect : ∀ c ∈ b.tests ++ b.collected,
    c.estimate.predicateOnly = true ∨ c.estimate.ordered = false ∧ c.estimate.randomAccess = false

/-- A set that can be sought is among those to be read only if there is no other one to be sought. -/
def Settled (b : Buckets) : Prop :=
  (∀ c ∈ b.ordered, c.estimate.randomAccess = false) ∨
    b.seekable = [] ∧ ∃ single rest, b.ordered = single :: rest ∧ ∀ c ∈ rest, c.estimate.randomAccess = false

theorem sound_empty : empty.Sound :=
  ⟨by simp [empty], by simp [empty], by simp [empty], by simp [empty], by simp [empty]⟩

variable {b : Buckets} {c : Conjunct}

private theorem forall_mem_concat {P : Conjunct → Prop} {xs : List Conjunct} (h : ∀ x ∈ xs, P x) (hc : P c) :
    ∀ x ∈ xs ++ [c], P x := by
  intro x hx
  rcases List.mem_append.mp hx with hx | hx
  · exact h x hx
  · rwa [List.mem_singleton.mp hx]

theorem Sound.add (h : b.Sound) : (b.add c).Sound := by
  have hcollected : ∀ x ∈ b.collected, _ := fun x hx => h.indirect x (List.mem_append_right _ hx)
  have htests : ∀ x ∈ b.tests, _ := fun x hx => h.indirect x (List.mem_append_left _ hx)
  simp only [Buckets.add]
  split
  · rename_i honly
    exact ⟨h.seekable, h.ordered, h.probed, forall_mem_concat h.tests (.inl honly),
      List.forall_mem_append.mpr ⟨forall_mem_concat htests (.inl honly), hcollected⟩⟩
  · split
    · rename_i he
      exact ⟨forall_mem_concat h.seekable (Bool.and_eq_true_iff.mp he), h.ordered, h.probed, h.tests, h.indirect⟩
    · split
      · rename_i he
        exact ⟨h.seekable, forall_mem_concat h.ordered he, h.probed, h.tests, h.indirect⟩
      · rename_i ho
        have ho := Bool.eq_false_iff.mpr ho
        split
        · rename_i hk
          exact ⟨h.seekable, h.ordered, forall_mem_concat h.probed ⟨ho, hk⟩, h.tests, h.indirect⟩
        · rename_i hk
          have hk := Bool.eq_false_iff.mpr hk
          split
          · rename_i htestable
            exact ⟨h.seekable, h.ordered, h.probed, forall_mem_concat h.tests (.inr htestable),
              List.forall_mem_append.mpr ⟨forall_mem_concat htests (.inr ⟨ho, hk⟩), hcollected⟩⟩
          · exact ⟨h.seekable, h.ordered, h.probed, h.tests,
              List.forall_mem_append.mpr ⟨htests, forall_mem_concat hcollected (.inr ⟨ho, hk⟩)⟩⟩

/-- The new conjunct is the last one of some bucket. -/
theorem perm_all_add : (b.add c).all.Perm (b.all ++ [c]) := by
  have hmiddle : ∀ before after : List Conjunct, (before ++ ([c] ++ after)).Perm (before ++ (after ++ [c])) :=
    fun before after => List.perm_append_comm.append_left before
  simp only [Buckets.add]
  split
  · simpa only [all, tested, List.append_assoc] using
      hmiddle (b.seekable ++ b.ordered ++ b.tests) (b.probed ++ b.collected)
  · split
    · simpa only [all, tested, List.append_assoc] using hmiddle b.seekable (b.ordered ++ b.tested)
    · split
      · simpa only [all, tested, List.append_assoc] using hmiddle (b.seekable ++ b.ordered) b.tested
      · split
        · simpa only [all, tested, List.append_assoc] using
            hmiddle (b.seekable ++ b.ordered ++ b.tests ++ b.probed) b.collected
        · split
          · simpa only [all, tested, List.append_assoc] using
              hmiddle (b.seekable ++ b.ordered ++ b.tests) (b.probed ++ b.collected)
          · simp only [all, tested, List.append_assoc, List.Perm.refl]

theorem sound_foldl_add {cs : List Conjunct} (h : b.Sound) : (cs.foldl Buckets.add b).Sound := by
  induction cs generalizing b with
  | nil => exact h
  | cons c cs ih => exact ih h.add

theorem perm_all_foldl_add {cs : List Conjunct} : (cs.foldl Buckets.add b).all.Perm (b.all ++ cs) := by
  induction cs generalizing b with
  | nil => simp
  | cons c cs ih =>
    rw [List.foldl_cons, List.append_cons]
    exact ih.trans (perm_all_add.append_right cs)

theorem Sound.settle (h : b.Sound) : b.settle.Sound := by
  unfold Buckets.settle
  split
  · rename_i single hsingle
    refine ⟨by simp, fun c hc => ?_, h.probed, h.tests, h.indirect⟩
    rcases List.mem_cons.mp hc with rfl | hc
    · exact (h.seekable c (by rw [hsingle]; simp)).1
    · exact h.ordered c hc
  · exact h

theorem all_settle : b.settle.all = b.all := by
  unfold Buckets.settle
  split
  · rename_i single hsingle
    simp [all, tested, hsingle]
  · rfl

theorem unsought_foldl_add {cs : List Conjunct} (h : ∀ c ∈ b.ordered, c.estimate.randomAccess = false) :
    ∀ c ∈ (cs.foldl Buckets.add b).ordered, c.estimate.randomAccess = false := by
  induction cs generalizing b with
  | nil => exact h
  | cons c cs ih =>
    refine ih ?_
    simp only [Buckets.add]
    split
    · exact h
    · split
      · exact h
      · split
        · rename_i hboth ho
          exact forall_mem_concat h (by simpa [ho] using hboth)
        · split
          · exact h
          · split <;> exact h

theorem settled_settle (h : ∀ c ∈ b.ordered, c.estimate.randomAccess = false) : b.settle.Settled := by
  unfold Buckets.settle
  split
  · exact .inr ⟨rfl, _, _, rfl, h⟩
  · exact .inl h

end Buckets

/-! ### Replacing conjuncts -/

/-- The function leaves conjuncts in their buckets. -/
def Conjunct.KeepsFlags (f : Conjunct → Conjunct) : Prop := ∀ x, (f x).estimate.predicateOnly = x.estimate.predicateOnly ∧
  (f x).estimate.ordered = x.estimate.ordered ∧ (f x).estimate.randomAccess = x.estimate.randomAccess ∧
  (f x).estimate.isPredicate = x.estimate.isPredicate

theorem Conjunct.takeLeast_map {α β : Type} {f : α → β} {less : β → β → Bool} {less' : α → α → Bool} {xs : List α}
    (h : ∀ x ∈ xs, ∀ y ∈ xs, less (f x) (f y) = less' x y) :
    takeLeast less (xs.map f) = (takeLeast less' xs).map fun (x, rest) => (f x, rest.map f) := by
  induction xs with
  | nil => rfl
  | cons x rest ih =>
    rw [List.map_cons, takeLeast, takeLeast, ih fun y hy z hz => h y (by simp [hy]) z (by simp [hz])]
    rcases hleast : takeLeast less' rest with _ | ⟨least, others⟩
    · rfl
    · have hmem : least ∈ rest := (perm_of_takeLeast hleast).mem_iff.mpr List.mem_cons_self
      simp only [Option.map_some, h least (by simp [hmem]) x (by simp)]
      split <;> rfl

namespace Buckets

variable {f : Conjunct → Conjunct} {b : Buckets} {x : Conjunct} {xs : List Conjunct}

/-- The buckets with every conjunct replaced. -/
def mapped (f : Conjunct → Conjunct) (b : Buckets) : Buckets :=
  ⟨b.seekable.map f, b.ordered.map f, b.probed.map f, b.tests.map f, b.collected.map f⟩

private theorem mapped_add (hf : Conjunct.KeepsFlags f) : (b.add x).mapped f = (b.mapped f).add (f x) := by
  obtain ⟨honly, ho, hk, htestable⟩ := hf x
  simp only [add, honly, ho, hk, htestable, apply_ite (mapped f)]
  simp only [mapped, List.map_append, List.map_cons, List.map_nil]

theorem mapped_foldl_add (hf : Conjunct.KeepsFlags f) : (xs.foldl add b).mapped f = (xs.map f).foldl add (b.mapped f) := by
  induction xs generalizing b with
  | nil => rfl
  | cons x xs ih => rw [List.foldl_cons, ih, mapped_add hf, List.map_cons, List.foldl_cons]

theorem mapped_settle : b.settle.mapped f = (b.mapped f).settle := by
  obtain ⟨seekable, ordered, probed, tests, collected⟩ := b
  match seekable with
  | [] | [_] | _ :: _ :: _ => rfl

end Buckets

namespace Planner

variable {p : Planner} {g : Graph} {cs : List Conjunct} {b : Buckets} {plan : Plan}

/-! ### Intersecting -/

/-- The base, if there is one, is good for all the conditions together; there is none only before the first
condition. -/
def Covers (good : Plan → (AtomId → Prop) → Prop) (all : List Condition → AtomId → Prop) :
    Option Plan → List Condition → Prop
  | some base, done => good base (all done)
  | none, done => done = []

section Intersect

variable {good : Plan → (AtomId → Prop) → Prop} {all : List Condition → AtomId → Prop}

theorem covers_none : Covers good all none [] := rfl

variable {merge : Plan → Plan → Plan} {each : Condition → AtomId → Prop}
  (hmerge : ∀ left right P Q, good left P → good right Q → good (merge left right) fun id => P id ∧ Q id)
  (hsingle : ∀ c, all [c] = each c) (hconcat : ∀ cs c, all (cs ++ [c]) = fun id => all cs id ∧ each c id)

include hmerge hsingle hconcat in
/-- Taking conjuncts into an intersection one after the other. -/
theorem covers_intersect {base base' : Option Plan} {done : List Condition}
    (hcs : ∀ c ∈ cs, ∀ plan, c.plan = .ok plan → good plan (each c.condition)) (hbase : Covers good all base done)
    (h : intersect merge base cs = .ok base') : Covers good all base' (done ++ cs.map Conjunct.condition) := by
  induction cs generalizing base done with
  | nil =>
    cases h
    simpa using hbase
  | cons c cs ih =>
    obtain ⟨plan, hplan, h⟩ := bind_eq_ok_iff.mp h
    have hgood := hcs c (by simp) plan hplan
    have hrest : ∀ d ∈ cs, ∀ plan, d.plan = .ok plan → good plan (each d.condition) :=
      fun d hd => hcs d (by simp [hd])
    rw [List.map_cons, ← List.singleton_append, ← List.append_assoc]
    refine ih hrest ?_ h
    -- the first plan is the base itself, every other one is merged with it
    cases base with
    | some left =>
      show good _ _
      rw [hconcat]
      exact hmerge _ _ _ _ hbase hgood
    | none =>
      have hdone : done = [] := hbase
      show good _ _
      rw [hdone, List.nil_append, hsingle]
      exact hgood

include hsingle hconcat in
/-- The base that is intersected from the conjuncts that are found in order: by seeking as long as they can be sought, and
by merging from there on. -/
theorem covers_base (sought : Plan → (AtomId → Prop) → Prop) {zigZags base : Option Plan}
    (hzigZag : ∀ left right P Q, sought left P → sought right Q → sought (.zigZag left right) fun id => P id ∧ Q id)
    (hsortedMerge : ∀ left right P Q, good left P → good right Q → good (.sortedMerge left right) fun id => P id ∧ Q id)
    (hgood : ∀ plan P, sought plan P → good plan P)
    (hseekable : ∀ c ∈ b.seekable, ∀ plan, c.plan = .ok plan → sought plan (each c.condition))
    (hordered : ∀ c ∈ b.ordered, ∀ plan, c.plan = .ok plan → good plan (each c.condition))
    (hzigZags : intersect .zigZag none b.seekable = .ok zigZags)
    (hbase : intersect .sortedMerge zigZags b.ordered = .ok base) :
    Covers good all base ((b.seekable ++ b.ordered).map Conjunct.condition) := by
  have hsought : Covers sought all zigZags ([] ++ b.seekable.map Conjunct.condition) :=
    covers_intersect hzigZag hsingle hconcat hseekable covers_none hzigZags
  have hread : Covers good all zigZags (b.seekable.map Conjunct.condition) := by
    cases zigZags with
    | some left => exact hgood left _ hsought
    | none => exact hsought
  rw [List.map_append]
  exact covers_intersect hsortedMerge hsingle hconcat hordered hread hbase

end Intersect

/-- The base that is intersected from the ordered conjuncts. -/
theorem covers_ordered {zigZags base : Option Plan} (hb : b.Sound) (hsound : ∀ c ∈ b.all, c.Sound g)
    (hzigZags : intersect .zigZag none b.seekable = .ok zigZags)
    (hbase : intersect .sortedMerge zigZags b.ordered = .ok base) :
    Covers (fun plan P => ∃ k, plan.Finds g true k P) (MatchesAll g) base
      ((b.seekable ++ b.ordered).map Conjunct.condition) := by
  have hseekable : ∀ c ∈ b.seekable, ∀ plan, c.plan = .ok plan → plan.Finds g true true (c.condition.Matches g) := by
    intro c hc plan hplan
    obtain ⟨o, k, hfinds, hfits⟩ := (hsound c (by simp [Buckets.all, hc])).serves plan hplan
    obtain ⟨ho, hk⟩ := hb.seekable c hc
    rwa [hfits.inOrder ho, hfits.sought ho hk] at hfinds
  have hordered : ∀ c ∈ b.ordered, ∀ plan, c.plan = .ok plan → ∃ k, plan.Finds g true k (c.condition.Matches g) := by
    intro c hc plan hplan
    obtain ⟨o, k, hfinds, hfits⟩ := (hsound c (by simp [Buckets.all, hc])).serves plan hplan
    rw [hfits.inOrder (hb.ordered c hc)] at hfinds
    exact ⟨k, hfinds⟩
  have hsingle : ∀ c, MatchesAll g [c] = c.Matches g := fun _ => funext fun _ => propext Condition.matchesAll_singleton
  have hconcat : ∀ cs c, MatchesAll g (cs ++ [c]) = fun id => MatchesAll g cs id ∧ c.Matches g id :=
    fun _ _ => Condition.matchesAll_concat
  have hmerge : ∀ left right P Q, (∃ k, left.Finds g true k P) → (∃ k, right.Finds g true k Q) →
      ∃ k, (Plan.sortedMerge left right).Finds g true k fun id => P id ∧ Q id := by
    rintro left right P Q ⟨_, hl⟩ ⟨_, hr⟩
    exact ⟨false, hl.sortedMerge hr⟩
  exact covers_base hsingle hconcat (fun plan P => plan.Finds g true true P) (fun _ _ _ _ hl hr => hl.zigZag hr) hmerge
    (fun _ _ h => ⟨true, h⟩) hseekable hordered hzigZags hbase

/-! ### Filtering -/

section Steps

variable {T : FilterStep → Condition → Prop} {ss : List FilterStep}

private theorem forall₂_mapM (step : Conjunct → Plan → FilterStep)
    (hstep : ∀ c ∈ cs, ∀ plan, c.plan = .ok plan → T (step c plan) c.condition)
    (h : (cs.mapM fun c => return step c (← c.plan)) = .ok ss) : List.Forall₂ T ss (cs.map Conjunct.condition) := by
  induction cs generalizing ss with
  | nil =>
    cases h
    exact .nil
  | cons c cs ih =>
    rw [List.mapM_cons] at h
    obtain ⟨first, hfirst, h⟩ := bind_eq_ok_iff.mp h
    obtain ⟨plan, hplan, hfirst⟩ := bind_eq_ok_iff.mp hfirst
    obtain ⟨rest, hrest, h⟩ := bind_eq_ok_iff.mp h
    cases hfirst
    cases h
    exact .cons (hstep c (by simp) plan hplan) (ih (fun d hd => hstep d (by simp [hd])) hrest)

/-- The steps stand for the conditions of the conjuncts left for the filter, in some order. -/
theorem forall₂_steps (htests : ∀ c ∈ b.tests, T (.predicate c.condition c.testCost) c.condition)
    (hprobed : ∀ c ∈ b.probed, ∀ plan, c.plan = .ok plan → T (.membership plan c.testCost) c.condition)
    (hcollected : ∀ c ∈ b.collected, ∀ plan, c.plan = .ok plan → T (.materialized plan) c.condition)
    (h : steps b = .ok ss) :
    ∃ ds, List.Forall₂ T ss ds ∧ ds.Perm (b.tested.map Conjunct.condition) := by
  obtain ⟨probes, hprobes, h⟩ := bind_eq_ok_iff.mp h
  obtain ⟨collected, hgathers, h⟩ := bind_eq_ok_iff.mp h
  cases h
  have htests : List.Forall₂ T (b.tests.map fun c => .predicate c.condition c.testCost)
      (b.tests.map Conjunct.condition) := by
    rw [List.forall₂_map_left_iff, List.forall₂_map_right_iff, List.forall₂_same]
    exact htests
  have hprobed : List.Forall₂ T probes (b.probed.map Conjunct.condition) :=
    forall₂_mapM (fun c plan => .membership plan c.testCost) hprobed hprobes
  have hcollected : List.Forall₂ T collected (b.collected.map Conjunct.condition) :=
    forall₂_mapM (fun _ plan => .materialized plan) hcollected hgathers
  -- sorting the steps by their cost permutes the conditions they stand for
  obtain ⟨sorted, hsorted, hperm⟩ := List.perm_comp_forall₂ (List.mergeSort_perm _ _) (List.rel_append htests hprobed)
  refine ⟨sorted ++ b.collected.map Conjunct.condition, List.rel_append hsorted hcollected, ?_⟩
  simpa only [Buckets.tested, List.map_append] using hperm.append_right _

/-- What holds of each step that a conjunct left for the filter becomes holds of all steps. -/
theorem forall_steps {S : FilterStep → Prop} (htests : ∀ c ∈ b.tests, S (.predicate c.condition c.testCost))
    (hprobed : ∀ c ∈ b.probed, ∀ plan, c.plan = .ok plan → S (.membership plan c.testCost))
    (hcollected : ∀ c ∈ b.collected, ∀ plan, c.plan = .ok plan → S (.materialized plan)) (h : steps b = .ok ss) :
    ∀ step ∈ ss, S step := by
  obtain ⟨ds, hall, -⟩ := forall₂_steps (T := fun step _ => S step ∧ True) (fun c hc => ⟨htests c hc, trivial⟩)
    (fun c hc plan hplan => ⟨hprobed c hc plan hplan, trivial⟩)
    (fun c hc plan hplan => ⟨hcollected c hc plan hplan, trivial⟩) h
  exact ((List.forall₂_and_left _ _).mp hall).1

end Steps

/-- The steps decide what the conjuncts left for the filter match. -/
theorem decide_steps {ss : List FilterStep} (hb : b.Sound) (hsound : ∀ c ∈ b.tested, c.Sound g)
    (h : steps b = .ok ss) :
    FilterStep.Decide g ss fun id => ∀ c ∈ b.tested, c.condition.Matches g id := by
  have htests : ∀ c ∈ b.tests, (FilterStep.predicate c.condition c.testCost).Tests g (c.condition.Matches g) :=
    fun c hc => FilterStep.tests_predicate (hsound c (by simp [Buckets.tested, hc])).decided
  have hprobed : ∀ c ∈ b.probed, ∀ plan, c.plan = .ok plan →
      (FilterStep.membership plan c.testCost).Tests g (c.condition.Matches g) := by
    intro c hc plan hplan
    obtain ⟨o, k, hfinds, hfits⟩ := (hsound c (by simp [Buckets.tested, hc])).serves plan hplan
    obtain ⟨ho, hk⟩ := hb.probed c hc
    obtain ⟨rfl, rfl⟩ := hfits.probed ho hk
    exact FilterStep.tests_membership hfinds
  have hcollected : ∀ c ∈ b.collected, ∀ plan, c.plan = .ok plan →
      (FilterStep.materialized plan).Tests g (c.condition.Matches g) := by
    intro c hc plan hplan
    obtain ⟨o, k, hfinds, -⟩ := (hsound c (by simp [Buckets.tested, hc])).serves plan hplan
    exact FilterStep.tests_materialized hfinds
  obtain ⟨ds, hall, hperm⟩ :=
    forall₂_steps (T := fun step c => step.Tests g (c.Matches g)) htests hprobed hcollected h
  have hdecide : FilterStep.Decide g ss fun id => ∀ d ∈ ds, d.Matches g id := by
    clear h hperm
    induction hall with
    | nil => exact FilterStep.decide_nil.congr fun id => by simp
    | cons htests _ ih => exact (htests ih).congr fun id => by simp
  exact hdecide.congr fun id => by simp only [hperm.mem_iff, List.forall_mem_map]

/-- There is one step for each conjunct left for the filter. -/
theorem length_steps {ss : List FilterStep} (h : steps b = .ok ss) : ss.length = b.tested.length := by
  obtain ⟨ds, hall, hperm⟩ := forall₂_steps (T := fun _ _ => True) (fun _ _ => trivial) (fun _ _ _ _ => trivial)
    (fun _ _ _ _ => trivial) h
  rw [hall.length_eq, hperm.length_eq, List.length_map]

/-- Testing what a base finds with the conjuncts left for the filter. -/
private theorem finds_filtered_steps {done : List Condition} {base : Plan} {ordered seekable : Bool}
    {ss : List FilterStep} (hbase : base.Finds g ordered seekable (MatchesAll g done)) (hb : b.Sound)
    (hsound : ∀ c ∈ b.tested, c.Sound g) (h : steps b = .ok ss) :
    ∃ o k, (Plan.filtered base ss).Finds g o k (MatchesAll g (done ++ b.tested.map Conjunct.condition)) := by
  have hstored : ∀ id, MatchesAll g done id → ∃ a, g.store.atom? id = some a := fun _ => Condition.stored_of_matchesAll
  refine ⟨_, _, (hbase.filtered hstored (decide_steps hb hsound h)).congr fun id => ?_⟩
  rw [Condition.matchesAll_append]
  refine and_congr_right fun hid => ?_
  obtain ⟨a, ha⟩ := hstored id hid
  simp only [Condition.matchesAll_iff_of_stored ha, List.forall_mem_map, Condition.matches_iff_of_stored ha]

/-- A base is chosen by taking a conjunct out of the buckets, or else, if there are mere tests, by reading every
atom. -/
theorem chooseBase_cases {c : Condition} {base : Plan} {rest : Buckets} (hb : b.Sound)
    (h : p.chooseBase c b = .ok (base, rest)) :
    (∃ x, x.plan = .ok base ∧ rest.Sound ∧ b.tested.Perm (x :: rest.tested)) ∨
      (p.fullScan c = .ok base ∧ rest = b ∧ b.probed = [] ∧ b.collected = []) := by
  unfold chooseBase at h
  split at h
  · rename_i least others hleast
    obtain ⟨plan, hplan, h⟩ := bind_eq_ok_iff.mp h
    cases h
    have hperm := Conjunct.perm_of_takeLeast hleast
    have hothers : ∀ y ∈ b.tests ++ others, y ∈ b.tests ++ b.collected := fun y hy =>
      (List.mem_append.mp hy).elim (List.mem_append_left _) fun hy =>
        List.mem_append_right _ (hperm.mem_iff.mpr (List.mem_cons_of_mem _ hy))
    refine .inl ⟨least, hplan, ⟨hb.seekable, hb.ordered, hb.probed, hb.tests,
      fun y hy => hb.indirect y (hothers y hy)⟩, ?_⟩
    exact (hperm.append_left (b.tests ++ b.probed)).trans List.perm_middle
  · split at h
    · rename_i least others hleast
      obtain ⟨plan, hplan, h⟩ := bind_eq_ok_iff.mp h
      cases h
      have hperm := Conjunct.perm_of_takeLeast hleast
      have hothers : ∀ y ∈ others, y ∈ b.probed := fun y hy => hperm.mem_iff.mpr (List.mem_cons_of_mem _ hy)
      refine .inl ⟨least, hplan, ⟨hb.seekable, hb.ordered, fun y hy => hb.probed y (hothers y hy), hb.tests,
        hb.indirect⟩, ?_⟩
      exact ((hperm.append_left b.tests).trans List.perm_middle).append_right b.collected
    · rename_i hcollected _ hprobed
      obtain ⟨plan, hplan, h⟩ := bind_eq_ok_iff.mp h
      cases h
      exact .inr ⟨hplan, rfl, Conjunct.eq_nil_of_takeLeast hprobed, Conjunct.eq_nil_of_takeLeast hcollected⟩

/-- The base of a conjunction without ordered conjuncts finds what matches the conjuncts taken for it. -/
theorem finds_chooseBase {c : Condition} {base : Plan} {rest : Buckets} (hstore : p.graph.store.Consistent)
    (hb : b.Sound) (hsound : ∀ x ∈ b.tested, x.Sound p.graph) (h : p.chooseBase c b = .ok (base, rest)) :
    ∃ (done : List Conjunct) (o k : Bool), base.Finds p.graph o k (MatchesAll p.graph (done.map Conjunct.condition)) ∧
      rest.Sound ∧ b.tested.Perm (done ++ rest.tested) := by
  rcases chooseBase_cases hb h with ⟨x, hplan, hrest, hperm⟩ | ⟨hscan, rfl, -⟩
  · obtain ⟨o, k, hfinds, -⟩ := (hsound x (hperm.mem_iff.mpr List.mem_cons_self)).serves base hplan
    exact ⟨[x], o, k, hfinds.congr fun id => Condition.matchesAll_singleton.symm, hrest, hperm⟩
  · refine ⟨[], true, true, (finds_fullScan_of_ok hstore hscan).congr fun id => ?_, hb, .refl _⟩
    exact exists_congr fun a => by simp

/-! ### Conjunctions -/

/-- The stages of planning a conjunction: the ordered conjuncts are intersected, a base is chosen if there are none,
and the base is filtered by what is left. -/
theorem stages_of_planConjunction {c : Condition} (h : p.planConjunction c cs = .ok plan) :
    ∃ (b : Buckets) (zigZags base? : Option Plan), b.Sound ∧ b.Settled ∧ b.all.Perm cs ∧
      intersect .zigZag none b.seekable = .ok zigZags ∧ intersect .sortedMerge zigZags b.ordered = .ok base? ∧
      ∃ (base : Plan) (rest : Buckets) (ss : List FilterStep),
        (base? = some base ∧ rest = b ∨ base? = none ∧ p.chooseBase c b = .ok (base, rest)) ∧
        steps rest = .ok ss ∧ plan = .filtered base ss := by
  refine ⟨(cs.foldl Buckets.add .empty).settle, ?_⟩
  unfold planConjunction at h
  obtain ⟨zigZags, hzigZags, h⟩ := bind_eq_ok_iff.mp h
  obtain ⟨base?, hbase?, h⟩ := bind_eq_ok_iff.mp h
  refine ⟨zigZags, base?, (Buckets.sound_foldl_add Buckets.sound_empty).settle,
    Buckets.settled_settle (Buckets.unsought_foldl_add (by simp [Buckets.empty])), ?_, hzigZags, hbase?, ?_⟩
  · rw [Buckets.all_settle]
    exact Buckets.perm_all_foldl_add
  · cases base? with
    | some base =>
      obtain ⟨ss, hss, h⟩ := bind_eq_ok_iff.mp h
      cases h
      exact ⟨base, _, ss, .inl ⟨rfl, rfl⟩, hss, rfl⟩
    | none =>
      obtain ⟨⟨base, rest⟩, hchoice, h⟩ := bind_eq_ok_iff.mp h
      obtain ⟨ss, hss, h⟩ := bind_eq_ok_iff.mp h
      cases h
      exact ⟨base, rest, ss, .inr ⟨rfl, hchoice⟩, hss, rfl⟩

/-- The plan of a conjunction finds what matches all its conjuncts. -/
theorem finds_planConjunction {c : Condition} (hstore : p.graph.store.Consistent) (hcs : ∀ x ∈ cs, x.Sound p.graph)
    (h : p.planConjunction c cs = .ok plan) :
    ∃ o k, plan.Finds p.graph o k (MatchesAll p.graph (cs.map Conjunct.condition)) := by
  obtain ⟨b, zigZags, base?, hb, -, hall, hzigZags, hbase?, base, rest, ss, hchoice, hss, rfl⟩ :=
    stages_of_planConjunction h
  have hsound : ∀ x ∈ b.all, x.Sound p.graph := fun x hx => hcs x (hall.mem_iff.mp hx)
  have htested : ∀ x ∈ b.tested, x.Sound p.graph := fun x hx => hsound x (List.mem_append_right _ hx)
  have hcovers := covers_ordered hb hsound hzigZags hbase?
  -- what is taken for the base and what is left for the filter are all the conjuncts
  have hparts : ∃ (done : List Conjunct) (o k : Bool),
      base.Finds p.graph o k (MatchesAll p.graph (done.map Conjunct.condition)) ∧ rest.Sound ∧
      (∀ x ∈ rest.tested, x.Sound p.graph) ∧ (done ++ rest.tested).Perm cs := by
    rcases hchoice with ⟨rfl, rfl⟩ | ⟨rfl, hchoice⟩
    · obtain ⟨k, hbase⟩ := hcovers
      exact ⟨rest.seekable ++ rest.ordered, true, k, hbase, hb, htested, hall⟩
    · have hnone : (b.seekable ++ b.ordered).map Conjunct.condition = [] := hcovers
      rw [Buckets.all, List.map_eq_nil_iff.mp hnone, List.nil_append] at hall
      obtain ⟨done, o, k, hbase, hrest, hperm⟩ := finds_chooseBase hstore hb htested hchoice
      exact ⟨done, o, k, hbase, hrest, fun x hx => htested x (hperm.mem_iff.mpr (List.mem_append_right _ hx)),
        hperm.symm.trans hall⟩
  obtain ⟨done, o, k, hbase, hrest, hsoundRest, hperm⟩ := hparts
  obtain ⟨o, k, hfinds⟩ := finds_filtered_steps hbase hrest hsoundRest hss
  refine ⟨o, k, hfinds.congr fun id => Condition.matchesAll_congr fun d => ?_⟩
  rw [← List.map_append]
  exact (hperm.map Conjunct.condition).mem_iff

end Planner

end HyperQuery
