import HyperQuery.Proofs.Condition.Testing
import HyperQuery.Proofs.Plan.NormalForm
import HyperQuery.Proofs.Plan.Prepare

/-!
# When conditions can be planned

A condition in disjunctive normal form can be planned if and only if each of its alternatives can. A conjunction can be
planned if and only if all conjuncts that are not merely tested can, and if there is one of them, unless every atom may be
read (`Planner.settles_planConjunction`). A constraint that can be estimated can be planned, unless it reads every atom
itself (`Condition.readsEverything`, `Planner.settles_planLeaf`). All this is stated together with the errors that
computations fail with otherwise (`Settles`).
-/

namespace HyperQuery

/-! ### Succeeding exactly if -/

section Settles

variable {α β ι : Type} {E : QueryError → Prop} {P Q : Prop} {x : Except QueryError α} {k : α → Except QueryError β}

/-- The computation succeeds if the proposition holds, and otherwise fails with a permitted error. -/
structure Settles (E : QueryError → Prop) (P : Prop) (x : Except QueryError α) : Prop where
  succeeds : P → ∃ a, x = .ok a
  fails : ¬ P → ∃ e, x = .error e ∧ E e

theorem Settles.of_exists (hP : P) (h : ∃ a, x = .ok a) : Settles E P x := ⟨fun _ => h, fun hnot => absurd hP hnot⟩

theorem Settles.ok {a : α} (hP : P) : Settles E P (.ok a : Except QueryError α) := .of_exists hP ⟨a, rfl⟩

theorem Settles.error {e : QueryError} (he : E e) (hP : ¬ P) : Settles E P (.error e : Except QueryError α) :=
  ⟨fun h => absurd h hP, fun _ => ⟨e, rfl, he⟩⟩

theorem Settles.congr (h : Settles E P x) (hPQ : P ↔ Q) : Settles E Q x := by rwa [← hPQ]

theorem Settles.iff (h : Settles E P x) : (∃ a, x = .ok a) ↔ P := by
  refine ⟨fun ⟨a, ha⟩ => ?_, h.succeeds⟩
  by_contra hP
  obtain ⟨e, he, -⟩ := h.fails hP
  rw [ha] at he
  cases he

/-- Any computation succeeds if it does. -/
theorem Settles.any (x : Except QueryError α) : Settles (fun _ => True) (∃ a, x = .ok a) x := by
  rcases x with e | a
  · exact .error trivial (by simp)
  · exact .ok ⟨a, rfl⟩

theorem Settles.bind (h : Settles E P x) (hk : ∀ a, x = .ok a → Settles E Q (k a)) : Settles E (P ∧ Q) (x >>= k) := by
  rcases hx : x with e | a
  · have hP : ¬ P := fun hP => by simpa [hx] using h.succeeds hP
    obtain ⟨e', he', hE⟩ := h.fails hP
    cases hx.symm.trans he'
    exact .error hE fun hboth => hP hboth.1
  · have hP : P := h.iff.mp ⟨a, hx⟩
    exact (hk a hx).congr (by simp [hP])

theorem Settles.bind_pure (h : Settles E P x) {f : α → β} : Settles E P (x >>= fun a => pure (f a)) :=
  (h.bind (Q := True) fun _ _ => .ok trivial).congr (iff_of_eq (and_true P))

theorem Settles.mapM {P : ι → Prop} {xs : List ι} {f : ι → Except QueryError α} (h : ∀ i ∈ xs, Settles E (P i) (f i)) :
    Settles E (∀ i ∈ xs, P i) (xs.mapM f) := by
  induction xs with
  | nil => exact .ok (by simp)
  | cons i xs ih =>
    rw [List.mapM_cons]
    have hrest := ih fun j hj => h j (by simp [hj])
    exact ((h i (by simp)).bind fun _ _ => hrest.bind_pure).congr List.forall_mem_cons.symm

end Settles

/-! ### Sorting conjuncts -/

namespace Conjunct

/-- The conjunct is tested on the candidates that others enumerate; its plan is not used. -/
def isTested (x : Conjunct) : Bool :=
  x.estimate.predicateOnly || (!x.estimate.ordered && !x.estimate.randomAccess && x.estimate.isPredicate)

end Conjunct

namespace Buckets

variable {b : Buckets} {x : Conjunct} {xs : List Conjunct}

/-- The conjuncts whose plans are used. -/
def drawn (b : Buckets) : List Conjunct := b.seekable ++ b.ordered ++ b.probed ++ b.collected

/-- Tests are apart from the other conjuncts. -/
structure Parted (b : Buckets) : Prop where
  tests : ∀ x ∈ b.tests, x.isTested = true
  drawn : ∀ x ∈ b.drawn, x.isTested = false

theorem mem_all_iff : x ∈ b.all ↔ x ∈ b.tests ∨ x ∈ b.drawn := by
  simp only [all, tested, drawn, List.mem_append]
  tauto

theorem parted_empty : empty.Parted := ⟨by simp [empty], by simp [empty, drawn]⟩

theorem Parted.add (h : b.Parted) : (b.add x).Parted := by
  obtain ⟨htests, hdrawn⟩ := h
  simp only [Buckets.drawn, List.forall_mem_append] at hdrawn
  obtain ⟨⟨⟨hseekable, hordered⟩, hprobed⟩, hcollected⟩ := hdrawn
  have hconcat : ∀ {t : Bool} {xs : List Conjunct}, (∀ y ∈ xs, y.isTested = t) → x.isTested = t →
      ∀ y ∈ xs ++ [x], y.isTested = t := by
    intro t xs hxs hx y hy
    rcases List.mem_append.mp hy with hy | hy
    · exact hxs y hy
    · rwa [List.mem_singleton.mp hy]
  have hrest : ∀ {bs : Buckets}, (∀ y ∈ bs.tests, y.isTested = true) → (∀ y ∈ bs.seekable, y.isTested = false) →
      (∀ y ∈ bs.ordered, y.isTested = false) → (∀ y ∈ bs.probed, y.isTested = false) →
      (∀ y ∈ bs.collected, y.isTested = false) → bs.Parted := fun ht hs ho hp hc =>
    ⟨ht, by simpa only [Buckets.drawn, List.forall_mem_append] using ⟨⟨⟨hs, ho⟩, hp⟩, hc⟩⟩
  simp only [Buckets.add]
  split
  · rename_i honly
    exact hrest (hconcat htests (by simp [Conjunct.isTested, honly])) hseekable hordered hprobed hcollected
  · rename_i honly
    split
    · rename_i hboth
      refine hrest htests (hconcat hseekable ?_) hordered hprobed hcollected
      simp only [Bool.and_eq_true] at hboth
      simp [Conjunct.isTested, honly, hboth]
    · split
      · rename_i ho
        exact hrest htests hseekable (hconcat hordered (by simp [Conjunct.isTested, honly, ho])) hprobed hcollected
      · split
        · rename_i hk
          exact hrest htests hseekable hordered (hconcat hprobed (by simp [Conjunct.isTested, honly, hk])) hcollected
        · split
          · rename_i ho hk htestable
            refine hrest (hconcat htests ?_) hseekable hordered hprobed hcollected
            simp [Conjunct.isTested, ho, hk, htestable]
          · rename_i htestable
            exact hrest htests hseekable hordered hprobed
              (hconcat hcollected (by simp [Conjunct.isTested, honly, htestable]))

theorem Parted.settle (h : b.Parted) : b.settle.Parted := by
  unfold Buckets.settle
  split
  · rename_i single hsingle
    exact ⟨h.tests, fun x hx => h.drawn x (by simpa [Buckets.drawn, hsingle] using hx)⟩
  · exact h

theorem parted_foldl_add (h : b.Parted) : (xs.foldl Buckets.add b).Parted := by
  induction xs generalizing b with
  | nil => exact h
  | cons x xs ih => exact ih h.add

end Buckets

/-! ### Conjunctions -/

namespace Planner

variable {p : Planner} {c : Condition} {E : QueryError → Prop} {P : Conjunct → Prop} {xs : List Conjunct} {b : Buckets}

theorem settles_intersect {merge : Plan → Plan → Plan} {base : Option Plan} (hxs : ∀ x ∈ xs, Settles E (P x) x.plan) :
    Settles E (∀ x ∈ xs, P x) (intersect merge base xs) := by
  induction xs generalizing base with
  | nil => exact .ok (by simp)
  | cons x xs ih =>
    exact ((hxs x (by simp)).bind fun _ _ => ih fun y hy => hxs y (by simp [hy])).congr List.forall_mem_cons.symm

/-- Only without conjuncts there is no base. -/
theorem intersect_isNone {merge : Plan → Plan → Plan} {base base' : Option Plan} (h : intersect merge base xs = .ok base') :
    base' = none ↔ base = none ∧ xs = [] := by
  induction xs generalizing base with
  | nil =>
    cases h
    simp
  | cons x xs ih =>
    obtain ⟨plan, -, h⟩ := bind_eq_ok_iff.mp h
    simp [ih h]

theorem settles_steps (hprobed : ∀ x ∈ b.probed, Settles E (P x) x.plan)
    (hcollected : ∀ x ∈ b.collected, Settles E (P x) x.plan) :
    Settles E ((∀ x ∈ b.probed, P x) ∧ ∀ x ∈ b.collected, P x) (steps b) :=
  Settles.bind (.mapM fun x hx => (hprobed x hx).bind_pure) fun _ _ =>
    Settles.bind_pure (.mapM fun x hx => (hcollected x hx).bind_pure)

section FullScan

variable (hE : ∀ text, E (.plan (.fullScanDisabled text)))

include hE

theorem settles_fullScan : Settles E (p.config.allowFullScan = true) (p.fullScan c) := by
  unfold fullScan
  split
  · exact .ok ‹_›
  · exact .error (hE _) ‹_›

theorem settles_filteredFullScan (cost : Double) :
    Settles E (p.config.allowFullScan = true) (p.filteredFullScan c cost) := (settles_fullScan hE).bind_pure

private theorem settles_chooseBase (hprobed : ∀ x ∈ b.probed, Settles E (P x) x.plan)
    (hcollected : ∀ x ∈ b.collected, Settles E (P x) x.plan) :
    Settles E (((∀ x ∈ b.probed, P x) ∧ ∀ x ∈ b.collected, P x) ∧
        (p.config.allowFullScan = true ∨ b.probed ++ b.collected ≠ []))
      (p.chooseBase c b >>= fun (base, rest) => steps rest >>= fun ss => pure (Plan.filtered base ss)) := by
  unfold chooseBase
  rcases hleast : Conjunct.takeLeast Conjunct.expectsFewer b.collected with _ | ⟨least, others⟩
  · have hnone := Conjunct.eq_nil_of_takeLeast hleast
    rcases hleast : Conjunct.takeLeast Conjunct.testsCheaper b.probed with _ | ⟨least, others⟩
    · have hnone' := Conjunct.eq_nil_of_takeLeast hleast
      simp only [bind_assoc, pure_bind]
      refine ((settles_fullScan hE).bind fun _ _ => (settles_steps hprobed hcollected).bind_pure).congr ?_
      simp [hnone, hnone']
    · have hperm := Conjunct.perm_of_takeLeast hleast
      have hmem : ∀ x ∈ least :: others, x ∈ b.probed := fun x => hperm.mem_iff.mpr
      simp only [bind_assoc, pure_bind]
      refine ((hprobed least (hmem least (by simp))).bind fun _ _ => Settles.bind_pure
        (settles_steps (b := { b with probed := others }) (fun x hx => hprobed x (hmem x (by simp [hx]))) hcollected)).congr ?_
      have hne : b.probed ≠ [] := List.ne_nil_of_mem (hmem least (by simp))
      simp [hperm.mem_iff, hne, hnone]
  · have hperm := Conjunct.perm_of_takeLeast hleast
    have hmem : ∀ x ∈ least :: others, x ∈ b.collected := fun x => hperm.mem_iff.mpr
    simp only [bind_assoc, pure_bind]
    refine ((hcollected least (hmem least (by simp))).bind fun _ _ => Settles.bind_pure
      (settles_steps (b := { b with collected := others }) hprobed fun x hx => hcollected x (hmem x (by simp [hx])))).congr ?_
    have hne : b.collected ≠ [] := List.ne_nil_of_mem (hmem least (by simp))
    simp only [hperm.mem_iff, List.forall_mem_cons, ne_eq, List.append_eq_nil_iff, hne, and_false, not_false_eq_true,
      or_true, and_true]
    tauto

/-- A conjunction can be planned if the conjuncts that are not merely tested can, and either there is one of them or every
atom may be read. -/
theorem settles_planConjunction (hxs : ∀ x ∈ xs, x.isTested = false → Settles E (P x) x.plan) :
    Settles E ((∀ x ∈ xs, x.isTested = false → P x) ∧
        (p.config.allowFullScan = true ∨ ∃ x ∈ xs, x.isTested = false)) (p.planConjunction c xs) := by
  have hparted : (xs.foldl Buckets.add .empty).settle.Parted := (Buckets.parted_foldl_add Buckets.parted_empty).settle
  have hmem : ∀ x, x ∈ xs ↔ x ∈ (xs.foldl Buckets.add .empty).settle.tests ∨
      x ∈ (xs.foldl Buckets.add .empty).settle.drawn := by
    intro x
    rw [← Buckets.mem_all_iff, Buckets.all_settle, Buckets.perm_all_foldl_add.mem_iff]
    rfl
  unfold planConjunction
  generalize (xs.foldl Buckets.add .empty).settle = b at hparted hmem
  have hdrawn : ∀ x, x ∈ b.drawn ↔ x ∈ xs ∧ x.isTested = false := by
    intro x
    rw [hmem x]
    constructor
    · exact fun hx => ⟨.inr hx, hparted.drawn x hx⟩
    · rintro ⟨hx | hx, hnot⟩
      · rw [hparted.tests x hx] at hnot
        cases hnot
      · exact hx
  have hsettles : ∀ x ∈ b.drawn, Settles E (P x) x.plan := fun x hx =>
    hxs x ((hdrawn x).mp hx).1 ((hdrawn x).mp hx).2
  have hgoal : ((∀ x ∈ b.drawn, P x) ∧ (p.config.allowFullScan = true ∨ b.drawn ≠ [])) ↔
      (∀ x ∈ xs, x.isTested = false → P x) ∧ (p.config.allowFullScan = true ∨ ∃ x ∈ xs, x.isTested = false) := by
    simp only [hdrawn, and_imp, ne_eq, List.eq_nil_iff_forall_not_mem, not_forall, not_not]
  refine Settles.congr ?_ hgoal
  simp only [Buckets.drawn, List.forall_mem_append] at hsettles ⊢
  obtain ⟨⟨⟨hseekable, hordered⟩, hprobed⟩, hcollected⟩ := hsettles
  refine ((settles_intersect hseekable).bind fun zigZags hzigZags => (settles_intersect hordered).bind
    (Q := ((∀ x ∈ b.probed, P x) ∧ ∀ x ∈ b.collected, P x) ∧
      (p.config.allowFullScan = true ∨ b.seekable ++ b.ordered ++ b.probed ++ b.collected ≠ []))
    fun base hbase => ?_).congr (by tauto)
  have hnone : base = none ↔ b.seekable = [] ∧ b.ordered = [] := by
    rw [intersect_isNone hbase, intersect_isNone hzigZags]
    simp
  cases base with
  | some base =>
    refine (settles_steps hprobed hcollected).bind_pure.congr ?_
    have hne : ¬ (b.seekable = [] ∧ b.ordered = []) := fun h => by simpa using hnone.mpr h
    simp only [ne_eq, List.append_eq_nil_iff, hne, false_and, not_false_eq_true, or_true, and_true]
  | none =>
    obtain ⟨hs, ho⟩ := hnone.mp rfl
    rw [hs, ho]
    exact settles_chooseBase hE hprobed hcollected

end FullScan

end Planner

/-! ### Leaves -/

namespace Condition

/-- Whether the results of the constraint can only be had by reading every atom. -/
def readsEverything (s : Store) : Condition → Bool
  | .any => true
  | .value literal _ => (s.typeOfValue literal).isNone
  | .link pattern | .orderedLink pattern => !pattern.isEmpty && (LinkPattern.concrete pattern).isEmpty
  | _ => false

end Condition

namespace Planner

open Condition

variable {p : Planner} {c l : Condition} {cs : List Condition} {e : Estimate} {E : QueryError → Prop} {P : Prop}

private theorem exists_typedValue {ty : AtomId} {literal : Value} {op : Comparison} {cost : Double}
    (he : estimateTypedValue p.graph.store ty literal op = .ok e) : ∃ plan, p.typedValue c ty literal op cost = .ok plan := by
  obtain ⟨index?, hindex, -⟩ := bind_eq_ok_iff.mp he
  rw [typedValue, hindex]
  cases index? with
  | some index => exact ⟨_, rfl⟩
  | none => exact ⟨_, rfl⟩

variable (hE : ∀ text, E (.plan (.fullScanDisabled text)))

include hE

private theorem settles_linkPattern {pattern : List Target} (he : c.estimate p.graph = .ok e) :
    Settles E (p.config.allowFullScan = true ∨ (!pattern.isEmpty && (LinkPattern.concrete pattern).isEmpty) = false)
      (p.linkPattern c pattern) := by
  unfold linkPattern
  by_cases hempty : pattern.isEmpty = true
  · rw [if_pos hempty]
    exact .ok (.inr (by rw [hempty]; rfl))
  · rw [if_neg hempty, he]
    rcases LinkPattern.concrete pattern with _ | ⟨id, ids⟩
    · exact (settles_filteredFullScan hE _).congr (by simp [hempty])
    · exact .ok (.inr (by simp))

/-- A leaf that can be estimated can be planned by itself if it is neither a test nor reads every atom, or if that is
allowed. -/
theorem settles_planLeaf (hleaf : c.isCombinator = false) (hmap : ∀ operand mapping, c ≠ .map operand mapping)
    (he : c.estimate p.graph = .ok e) :
    Settles E (p.config.allowFullScan = true ∨ c.isTest = false ∧ c.readsEverything p.graph.store = false)
      (p.planLeaf c) := by
  by_cases htest : c.isTest = true
  · have hscan := (settles_filteredFullScan (p := p) (c := c) hE e.cost).congr (Q := p.config.allowFullScan = true ∨
      c.isTest = false ∧ c.readsEverything p.graph.store = false) (by simp [htest])
    have htestable := (shape_of_isTest htest he).1
    cases c with
    | part path literal op | predicate number | not operand =>
      simp only [planLeaf, he]
      show Settles E _ (if e.isPredicate = true then _ else _)
      rwa [if_pos htestable]
    | _ => simp [isTest] at htest
  · have hcompound := isCompound_of_not_isTest hleaf htest hmap
    refine Settles.congr (P := p.config.allowFullScan = true ∨ c.readsEverything p.graph.store = false) ?_ (by simp [htest])
    have hestimate := he
    rw [estimate_of_not_isCompound hcompound] at he
    cases c with
    | any => exact (settles_fullScan hE).congr (by simp [readsEverything])
    | nothing | incident id | targetOf id | walk w => exact .ok (.inr rfl)
    | subsumes id | subsumed id => exact .ok (.inr rfl)
    | ofType ty =>
      obtain ⟨id, hid, -⟩ := bind_eq_ok_iff.mp he
      exact .of_exists (.inr rfl) ⟨_, bind_eq_ok_iff.mpr ⟨id, hid, rfl⟩⟩
    | ofTypePlus ty =>
      obtain ⟨id, hid, he⟩ := bind_eq_ok_iff.mp he
      obtain ⟨below, hbelow, -⟩ := bind_eq_ok_iff.mp he
      exact .of_exists (.inr rfl) ⟨_, bind_eq_ok_iff.mpr ⟨id, hid, bind_eq_ok_iff.mpr ⟨below, hbelow, rfl⟩⟩⟩
    | value literal op =>
      obtain ⟨_, -, he⟩ := bind_eq_ok_iff.mp he
      simp only [planLeaf, hestimate, readsEverything]
      rcases hty : p.graph.store.typeOfValue literal with _ | ty
      · exact (settles_filteredFullScan hE _).congr (by simp)
      · rw [hty] at he
        exact .of_exists (.inr rfl) (exists_typedValue he)
    | typedValue ty literal op =>
      obtain ⟨_, -, he⟩ := bind_eq_ok_iff.mp he
      obtain ⟨id, hid, he⟩ := bind_eq_ok_iff.mp he
      obtain ⟨plan, hplan⟩ := exists_typedValue he
      exact .of_exists (.inr rfl) ⟨plan, bind_eq_ok_iff.mpr ⟨e, hestimate, bind_eq_ok_iff.mpr ⟨id, hid, hplan⟩⟩⟩
    | indexedPart ty path index literal op =>
      simp only [planLeaf, hestimate]
      refine .of_exists (.inr rfl) ?_
      split
      · exact ⟨_, rfl⟩
      · exact ⟨_, rfl⟩
    | link pattern | orderedLink pattern => exact settles_linkPattern hE hestimate
    | part path literal op => exact absurd rfl htest
    | predicate number => exact absurd rfl htest
    | and cs | or cs => simp [isCompound] at hcompound
    | not operand => simp [isCompound] at hcompound
    | map operand mapping => simp [isCompound] at hcompound

/-! ### Normal forms -/

omit hE in
/-- Among the conjuncts of a conjunction of leaves the tests are those that are merely tested. -/
theorem isTested_of_leaf (hleaf : c.isCombinator = false) (he : c.estimate p.graph = .ok e) (plan : Except QueryError Plan) :
    (Conjunct.mk c e plan).isTested = c.isTest := by
  by_cases htest : c.isTest = true
  · obtain ⟨htestable, hindirect⟩ := shape_of_isTest htest he
    simp [Conjunct.isTested, htest, htestable, hindirect.unordered, hindirect.unsought]
  · have hnot : c.isTest = false := Bool.eq_false_iff.mpr htest
    rw [hnot]
    rcases map_cases c with ⟨operand, mapping, rfl⟩ | hmap
    · obtain ⟨inner, -, he⟩ := bind_eq_ok_iff.mp he
      cases he
      simp [Conjunct.isTested, Estimate.isPredicate, Estimate.isNonnegative_notTestable]
    · have hcompound := isCompound_of_not_isTest hleaf htest hmap
      rcases hwalk : c.walkStart? with _ | id
      · obtain ⟨hdirect, honly⟩ := shape_of_constraint hcompound hnot hwalk he
        rcases hdirect with ho | hk <;> simp [Conjunct.isTested, *]
      · cases c with
        | walk w | subsumes id | subsumed id =>
          cases he
          simp [Conjunct.isTested, Estimate.unordered, Estimate.isPredicate, Estimate.isNonnegative_notTestable]
        | _ => simp [walkStart?] at hwalk

section Operands

variable {f : Condition → Except QueryError Plan} {O : Condition → Prop}

/-- The results of a leaf can be enumerated: those of the operand can if it is a mapping, and otherwise not every atom is
read, unless that is allowed. -/
def Enumerates (p : Planner) (O : Condition → Prop) (l : Condition) : Prop :=
  (∀ operand mapping, l = .map operand mapping → O operand) ∧
    (p.config.allowFullScan = true ∨ l.readsEverything p.graph.store = false)

/-- The conditions can be met together: all that are not tests can be enumerated, and there is one, unless every atom may be
read. -/
def Drives (p : Planner) (O : Condition → Prop) (leaves : List Condition) : Prop :=
  (∀ l ∈ leaves, l.isTest = false → p.Enumerates O l) ∧
    (p.config.allowFullScan = true ∨ ∃ l ∈ leaves, l.isTest = false)

variable (hf : ∀ operand mapping, .map operand mapping ∈ c.leaves → Settles E (O operand) (f operand))

include hf

private theorem settles_planWith_leaf (hleaf : c.isCombinator = false) (he : c.estimate p.graph = .ok e)
    (htest : c.isTest = false) : Settles E (p.Enumerates O c) (p.planWith f c) := by
  rcases map_cases c with ⟨operand, mapping, rfl⟩ | hmap
  · rw [planWith]
    refine (hf operand mapping (by simp [leaves])).bind_pure.congr ?_
    simp [Enumerates, readsEverything]
  · rw [planWith_of_leaf hleaf hmap]
    refine (settles_planLeaf hE hleaf hmap he).congr ?_
    simp [Enumerates, htest, hmap]

theorem settles_planWith_arm (harm : c.isArm = true) (he : c.estimate p.graph = .ok e) :
    Settles E (p.Drives O c.leaves) (p.planWith f c) := by
  rcases isArm_cases harm with hleaf | ⟨cs, rfl, hleaf⟩
  · rw [leaves_of_not_isCombinator hleaf]
    cases htest : c.isTest with
    | true =>
      have hmap : ∀ operand mapping, c ≠ .map operand mapping := by
        rintro operand mapping rfl
        simp [isTest] at htest
      rw [planWith_of_leaf hleaf hmap]
      exact (settles_planLeaf hE hleaf hmap he).congr (by simp [Drives, htest])
    | false =>
      exact (settles_planWith_leaf hE hf hleaf he htest).congr (by simp [Drives, htest])
  · rw [leaves_and hleaf] at hf ⊢
    rw [planWith]
    obtain ⟨es, hes, -⟩ := bind_eq_ok_iff.mp he
    rw [hes]
    have hconjunct : ∀ d ∈ cs, ∀ e, d.estimate p.graph = .ok e → (Conjunct.mk d e (p.planWith f d)).isTested = d.isTest ∧
        (d.isTest = false → Settles E (p.Enumerates O d) (p.planWith f d)) := by
      refine fun d hd e he => ⟨isTested_of_leaf (hleaf d hd) he _, fun htest => ?_⟩
      refine settles_planWith_leaf hE (fun operand mapping hmem => hf operand mapping ?_) (hleaf d hd) he htest
      rw [leaves_of_not_isCombinator (hleaf d hd), List.mem_singleton] at hmem
      rwa [hmem]
    obtain ⟨hall, hconditions⟩ := forall_mem_conjuncts (f := f)
      (S := fun x => x.isTested = x.condition.isTest ∧
        (x.condition.isTest = false → Settles E (p.Enumerates O x.condition) x.plan)) hes hconjunct
    refine (settles_planConjunction hE (P := fun x => p.Enumerates O x.condition)
      fun x hx htested => (hall x hx).2 ((hall x hx).1.symm.trans htested)).congr ?_
    have hmem : ∀ d, d ∈ cs ↔ ∃ x : Conjunct, x ∈ _ ∧ x.condition = d := fun d => by rw [← List.mem_map, hconditions]
    simp only [Drives, hmem, forall_exists_index, and_imp, forall_apply_eq_imp_iff₂, exists_exists_and_eq_and]
    refine and_congr (forall₂_congr fun x hx => ?_) (or_congr .rfl (exists_congr fun x => and_congr_right fun hx => ?_))
    · rw [(hall x hx).1]
    · rw [(hall x hx).1]

/-- A condition in disjunctive normal form can be planned if its alternatives can. -/
theorem settles_planWith (hnormal : c.isNormalForm = true) (he : c.estimate p.graph = .ok e) :
    Settles E (∀ d ∈ c.alternatives, p.Drives O d.leaves) (p.planWith f c) := by
  cases c with
  | or cs =>
    obtain ⟨es, hes, -⟩ := bind_eq_ok_iff.mp he
    rw [planWith, plansWith_eq_map, List.mapM_map]
    refine Settles.bind_pure (Settles.mapM fun d hd => ?_)
    obtain ⟨e, -, he⟩ := exists_estimate_of_mem hes hd
    exact settles_planWith_arm hE (fun operand mapping hmem => hf operand mapping (mem_leavesOf.mpr ⟨d, hd, hmem⟩))
      (List.all_eq_true.mp hnormal d hd) he
  | _ => exact (settles_planWith_arm hE hf hnormal he).congr (by simp [alternatives])

end Operands

/-! ### Mappings -/

omit hE

/-- Only the operands of mappings that are leaves matter. -/
theorem planWith_congr {f f' : Condition → Except QueryError Plan}
    (h : ∀ operand mapping, .map operand mapping ∈ c.leaves → f operand = f' operand) :
    p.planWith f c = p.planWith f' c := by
  induction c using combinatorInduction with
  | and cs ih | or cs ih =>
    have hplans : p.plansWith f cs = p.plansWith f' cs := by
      rw [plansWith_eq_map, plansWith_eq_map]
      exact List.map_congr_left fun d hd => ih d hd fun operand mapping hmem =>
        h operand mapping (mem_leavesOf.mpr ⟨d, hd, hmem⟩)
    rw [planWith, planWith, hplans]
  | leaf c hleaf =>
    rcases map_cases c with ⟨operand, mapping, rfl⟩ | hmap
    · rw [planWith, planWith, h operand mapping (by simp [leaves])]
    · rw [planWith_of_leaf hleaf hmap, planWith_of_leaf hleaf hmap]

private theorem mapDepths_le {n : Nat} (h : ∀ d ∈ cs, d.mapDepth ≤ n) : mapDepths cs ≤ n := by
  induction cs with
  | nil => exact Nat.zero_le n
  | cons d cs ih =>
    rw [mapDepths]
    exact Nat.max_le.mpr ⟨h d (by simp), ih fun d hd => h d (by simp [hd])⟩

private theorem mapDepth_le_of_leaves {n : Nat} (h : ∀ l ∈ c.leaves, l.mapDepth ≤ n) : c.mapDepth ≤ n := by
  induction c using combinatorInduction with
  | and cs ih | or cs ih =>
    rw [mapDepth]
    exact mapDepths_le fun d hd => ih d hd fun l hl => h l (mem_leavesOf.mpr ⟨d, hd, hl⟩)
  | leaf c hleaf => exact h c (by simp [leaves_of_not_isCombinator hleaf])

/-- Preparing a condition does not nest mappings deeper. -/
theorem mapDepth_of_prepare {d : Condition} (hd : p.prepare c = .ok d) : d.mapDepth ≤ c.mapDepth := by
  have hcore : ∀ l, Conjunction.CoreCondition p.graph.store l → (∀ a, l.Decided p.graph a) → l.mapDepth ≤ c.mapDepth := by
    intro l hl _
    cases hl <;> exact Nat.zero_le _
  exact mapDepth_le_of_leaves (normalFormOf_simplify_toNormalForm (L := fun l => l.mapDepth ≤ c.mapDepth)
    (Nat.zero_le _) (Nat.zero_le _) hcore (fun l hl => mapDepth_le_of_mem_leaves hl) hd).leaves

/-- The operands of mappings are prepared and planned like the condition itself. -/
theorem plan_eq (p : Planner) (c : Condition) : p.plan c = p.planWith (fun operand => p.prepare operand >>= p.plan) c := by
  suffices h : ∀ depth c, c.mapDepth ≤ depth →
      p.planNested depth c = p.planWith (fun operand => p.prepare operand >>= p.plan) c from h c.mapDepth c (Nat.le_refl _)
  intro depth
  induction depth using Nat.strongRecOn with
  | _ depth ih =>
    intro c hc
    have hoperand : ∀ operand mapping, .map operand mapping ∈ c.leaves → operand.mapDepth + 1 ≤ depth :=
      fun operand mapping hmem => Nat.le_trans (mapDepth_le_of_mem_leaves hmem) hc
    cases depth with
    | zero => exact planWith_congr fun operand mapping hmem => absurd (hoperand operand mapping hmem) (by omega)
    | succ depth =>
      refine planWith_congr fun operand mapping hmem => bind_congr_ok fun d hd => ?_
      have hdepth : d.mapDepth ≤ depth := Nat.le_trans (mapDepth_of_prepare hd) (by have := hoperand _ _ hmem; omega)
      exact (ih depth (by omega) d hdepth).trans (ih d.mapDepth (by omega) d (Nat.le_refl _)).symm

/-- A mapping gets the plan of its prepared operand, mapped. -/
theorem plan_map {d : Condition} {plan : Plan} (mapping : Mapping) (hd : p.prepare c = .ok d) (hplan : p.plan d = .ok plan) :
    p.plan (.map c mapping) = .ok (.map plan mapping) := by
  have hoperand : (p.prepare c >>= p.plan) = .ok plan := bind_eq_ok_iff.mpr ⟨d, hd, hplan⟩
  rw [plan_eq, planWith, hoperand]
  rfl

/-- A prepared condition can be planned if its alternatives can. -/
theorem settles_plan {O : Condition → Prop} (hE : ∀ text, E (.plan (.fullScanDisabled text)))
    (hO : ∀ operand mapping, .map operand mapping ∈ c.leaves → Settles E (O operand) (p.prepare operand >>= p.plan))
    (hnormal : c.isNormalForm = true) (he : c.estimate p.graph = .ok e) :
    Settles E (∀ d ∈ c.alternatives, p.Drives O d.leaves) (p.plan c) := by
  rw [plan_eq]
  exact settles_planWith hE hO hnormal he

end Planner

end HyperQuery
