import HyperQuery.Proofs.Cursor.Scans
import HyperQuery.Proofs.Plan.Making

/-!
# How many scans a plan takes

Opening a plan and reading it to the end takes at most one scan for each set that it reads, wherever in the plan, and one for
each atom that one of its walks expands (`Plan.scanBound`), however many candidates are tested. This needs two things of a plan
(`Plan.Frugal`): walks are read forward only, since a walk that is sought starts over, and the conditions of tests hide no
walks, which would start over for each candidate (`Plan.affords`). Planning sees to both: nothing is sought but what the
estimate says can be sought, which no walk can (`Planner.frugal_of_prepare`).
-/

namespace HyperQuery

/-! ### Costs of plans -/

/-- The atoms that a walk expands: those that it reaches, and the one that it starts from whether or not it is included. -/
def Walk.expanded (w : Walk) (s : Store) : List AtomId :=
  match ({ w with includeStart := true }.reachable s).answer with
  | .ok ids => ids
  | .error _ => []

mutual

/-- One scan for each set that the plan reads, and one for each atom that one of its walks expands, those in the plans of
steps among them. -/
def Plan.scanBound (s : Store) : Plan → Nat
  | .empty | .targetSet _ => 0
  | .fullScan | .typeScan _ | .indexLookup _ _ _ | .incidence _ => 1
  | .traversal walk => (walk.expanded s).length
  | .zigZag left right | .sortedMerge left right | .union left right => left.scanBound s + right.scanBound s
  | .filter base steps => base.scanBound s + FilterStep.scanBounds s steps
  | .map base _ => base.scanBound s

/-- The scans of the plan that the step probes or collects. -/
def FilterStep.scanBound (s : Store) : FilterStep → Nat
  | .predicate _ _ => 0
  | .membership plan _ | .materialized plan => plan.scanBound s

/-- The scans of the plans of steps. -/
def FilterStep.scanBounds (s : Store) : List FilterStep → Nat
  | [] => 0
  | step :: rest => step.scanBound s + FilterStep.scanBounds s rest

end

mutual

/-- Walks in the plan are read forward only, and no test hides one. With `sought` the plan is one that is sought itself. -/
def Plan.Frugal (sought : Bool) : Plan → Prop
  | .traversal _ => sought = false
  | .zigZag left right => left.Frugal true ∧ right.Frugal true
  | .sortedMerge left right | .union left right => left.Frugal sought ∧ right.Frugal sought
  | .filter base steps => base.Frugal sought ∧ FilterStep.AllFrugal steps
  | .map base _ => base.Frugal sought
  | .empty | .targetSet _ | .fullScan | .typeScan _ | .indexLookup _ _ _ | .incidence _ => True

/-- A test needs no walk, what is probed is sought, and what is collected is read forward. -/
def FilterStep.Frugal : FilterStep → Prop
  | .predicate condition _ => condition.isPointwise = true
  | .membership plan _ => plan.Frugal true
  | .materialized plan => plan.Frugal false

def FilterStep.AllFrugal : List FilterStep → Prop
  | [] => True
  | step :: rest => step.Frugal ∧ FilterStep.AllFrugal rest

end

theorem FilterStep.allFrugal_iff {steps : List FilterStep} : AllFrugal steps ↔ ∀ step ∈ steps, step.Frugal := by
  induction steps with
  | nil => simp [AllFrugal]
  | cons step rest ih => rw [AllFrugal, ih, List.forall_mem_cons]

/-! ### Costs of tests -/

theorem Metered.scans_bind {α β : Type} {x : Metered α} {f : α → Metered β} (hf : ∀ a, (f a).meters.scans = 0) :
    (x >>= f).meters.scans = x.meters.scans := by
  rw [meters_bind]
  split
  · rw [scans_add, hf, Nat.add_zero]
  · rfl

namespace Condition

variable {g : Graph} {a : Atom} {c : Condition}

private theorem scans_evalLeaf (hpoint : c.isPointwise = true) : (evalLeaf g a c).meters.scans = 0 := by
  cases c with
  | walk w => simp [isPointwise] at hpoint
  | subsumes id | subsumed id => simp [isPointwise] at hpoint
  | value literal op =>
    refine Metered.scans_bind fun _ => ?_
    split <;> rfl
  | ofType ty | targetOf ty => exact Metered.scans_bind fun _ => rfl
  | ofTypePlus ty => exact Metered.scans_bind fun _ => Metered.scans_bind fun _ => rfl
  | typedValue ty literal op => exact Metered.scans_bind fun _ => Metered.scans_bind fun _ => rfl
  | _ => rfl

private theorem scans_eval (hpoint : c.isPointwise = true) : (eval g a c).meters.scans = 0 := by
  induction c using treeInduction with
  | and cs ih =>
    rw [isPointwise, arePointwise_eq_all, List.all_eq_true] at hpoint
    rw [eval]
    induction cs with
    | nil => rfl
    | cons c cs ihcs =>
      rw [evalAll]
      refine (Metered.scans_bind fun passed => ?_).trans (ih c (by simp) (hpoint c (by simp)))
      cases passed with
      | true => exact ihcs (fun d hd => ih d (by simp [hd])) fun d hd => hpoint d (by simp [hd])
      | false => rfl
  | or cs ih =>
    rw [isPointwise, arePointwise_eq_all, List.all_eq_true] at hpoint
    rw [eval]
    induction cs with
    | nil => rfl
    | cons c cs ihcs =>
      rw [evalAny]
      refine (Metered.scans_bind fun passed => ?_).trans (ih c (by simp) (hpoint c (by simp)))
      cases passed with
      | true => rfl
      | false => exact ihcs (fun d hd => ih d (by simp [hd])) fun d hd => hpoint d (by simp [hd])
  | not operand ih =>
    rw [eval]
    exact (Metered.scans_bind fun _ => rfl).trans (ih hpoint)
  | map operand mapping _ => simp [isPointwise] at hpoint
  | leaf c hleaf =>
    have heval : eval g a c = evalLeaf g a c := by
      cases c with
      | and cs | or cs => simp [isCompound] at hleaf
      | not operand => simp [isCompound] at hleaf
      | map operand mapping => simp [isCompound] at hleaf
      | _ => rw [eval] <;> simp
    rw [heval]
    exact scans_evalLeaf hpoint

/-- Testing a condition without walks takes no scans. -/
theorem scans_satisfies (hpoint : c.isPointwise = true) (id : AtomId) : (c.satisfies g id).meters.scans = 0 := by
  unfold satisfies
  split
  · rfl
  · rfl
  · exact Metered.scans_bind fun _ => scans_eval hpoint

end Condition

/-! ### Cursors of plans -/

section Cursors

variable {σ τ ρ : Type} {sought : Bool} {g : Graph} {limit : Option Nat}

/-- Opening a cursor and moving it takes at most so many scans. -/
def Access.Affords (a : Access σ) (sought : Bool) (cost : Nat) : Prop :=
  ∃ (I : σ → Prop) (budget : σ → Nat), a.start.Affords I budget cost ∧ a.toNavigation.Affords sought I budget

/-- Tests that start in the given state take at most so many scans. -/
def Tester.Costs (t : Tester τ) (initial : τ) (cost : Nat) : Prop :=
  ∃ (J : τ → Prop) (reserve : τ → Nat), J initial ∧ reserve initial ≤ cost ∧ t.Affords J reserve

/-- Opening two cursors takes what opening each of them takes. -/
private theorem affords_pair {x : Metered σ} {y : Metered τ} {f : σ → τ → ρ} {I : σ → Prop} {J : τ → Prop} {K : ρ → Prop}
    {budget : σ → Nat} {reserve : τ → Nat} {total : ρ → Nat} {left right : Nat} (hx : x.Affords I budget left)
    (hy : y.Affords J reserve right) (hf : ∀ s t, I s → J t → K (f s t) ∧ total (f s t) = budget s + reserve t) :
    (do return f (← x) (← y) : Metered ρ).Affords K total (left + right) := by
  refine (hx.add right).bind fun s hs => ?_
  have hrest := hy.add (budget s)
  rw [Nat.add_comm right] at hrest
  refine hrest.bind fun t ht => ?_
  obtain ⟨hK, htotal⟩ := hf s t hs ht
  exact .pure hK (Nat.le_of_eq (htotal.trans (Nat.add_comm _ _)))

private theorem affords_single {x : Metered σ} {f : σ → ρ} {I : σ → Prop} {K : ρ → Prop} {budget : σ → Nat}
    {total : ρ → Nat} {cost : Nat} (hx : x.Affords I budget cost) (hf : ∀ s, I s → K (f s) ∧ total (f s) = budget s) :
    (do return f (← x) : Metered ρ).Affords K total cost :=
  hx.bind fun s hs => .pure (hf s hs).1 (Nat.le_of_eq (hf s hs).2)

theorem Reading.affords {r : Reading} {cost : Nat} (h : (r.take g.store).meters.scans ≤ cost) :
    ((Blueprint.reading r).access g).Affords sought cost := by
  have htake : (r.take g.store).Affords (fun _ => True) (fun _ => 0) cost := ⟨h, fun _ _ => ⟨trivial, h⟩⟩
  exact ⟨fun _ => True, fun _ => 0, affords_single htake fun _ _ => ⟨trivial, rfl⟩, SnapshotCursor.affords⟩

private theorem IndexHandle.scans_findRange_le (h : IndexHandle) {s : Store} {op : Comparison} {key : Value} :
    (h.findRange s op key).meters.scans ≤ 1 := by
  unfold findRange
  split
  · exact Nat.le_refl 1
  · split
    · exact Nat.zero_le 1
    · exact Nat.le_refl 1

namespace Walk

/-- A walk expands what its start leads to, each atom once. -/
theorem expanded_spec {s : Store} (hstore : s.Consistent) (w : Walk) :
    (w.expanded s).Nodup ∧ ∀ z, z ∈ w.expanded s ↔ Reach (w.next s) w.start z := by
  obtain ⟨ids, hids, hmem⟩ := ({ w with includeStart := true } : Walk).answer_reachable hstore
  have hexpanded : w.expanded s = ids := by rw [expanded, hids]
  rw [hexpanded]
  constructor
  · obtain ⟨found, -, hfound⟩ := Metered.answer_bind_eq_ok_iff.mp hids
    rw [← Except.ok.inj hfound]
    exact AtomSet.nodup_of_ascending (AtomSet.sorted_ofList found)
  · intro z
    rw [hmem]
    simp only [Bool.true_eq_false, false_implies, and_true]
    rfl

/-- A walk takes one scan for each atom that it expands. -/
theorem affords (hstore : g.store.Consistent) (w : Walk) :
    ((Blueprint.walk w).access g).Affords false (w.expanded g.store).length := by
  obtain ⟨-, hreach⟩ := w.expanded_spec hstore
  have hscans : ∀ x, (w.neighbours g.store x).meters.scans ≤ 1 := fun x =>
    Nat.le_of_eq (Metered.scans_bind fun _ => Metered.scans_bind fun _ => rfl)
  have hwalk : (Frontier.producer w.order (w.neighbours g.store) w.start w.includeStart g.store.linkEnds).Affords false
      (Frontier.Stays (w.expanded g.store)) (Frontier.unexpanded (w.expanded g.store)) :=
    Frontier.affords_walk (answer_neighbours hstore) hscans
      (fun x hx z hz => (hreach z).mpr (.step ((hreach x).mp hx) hz)) ((hreach _).mpr .refl)
  exact ⟨_, _, .pure (.inl rfl) (by simp [Frontier.unexpanded, Frontier.start, Buffered.start]), Buffered.affords hwalk⟩

end Walk

mutual

/-- Reading the cursor of a frugal plan takes no more scans than there are sets to read and atoms to expand. -/
theorem Plan.affords (hstore : g.store.Consistent) : (plan : Plan) → {sought : Bool} → plan.Frugal sought →
    ((plan.blueprint limit).access g).Affords sought (plan.scanBound g.store)
  | .empty, _, _ => Reading.affords (r := .nothing) (Nat.le_refl 0)
  | .targetSet link, _, _ => Reading.affords (r := .targets link) (Nat.le_of_eq (Metered.scans_bind fun _ => rfl))
  | .fullScan, _, _ => Reading.affords (r := .everything) (Nat.le_refl 1)
  | .typeScan ty, _, _ => Reading.affords (r := .ofType ty) (Nat.le_refl 1)
  | .incidence id, _, _ => Reading.affords (r := .incident id) (Nat.le_refl 1)
  | .indexLookup index key op, _, _ => Reading.affords (r := .lookup index key op) index.scans_findRange_le
  | .traversal w, _, hfrugal => hfrugal ▸ w.affords hstore
  | .zigZag left right, _, ⟨hl, hr⟩ => by
    obtain ⟨I, budget, hstart, hl⟩ := Plan.affords hstore left hl
    obtain ⟨J, reserve, hstart', hr⟩ := Plan.affords hstore right hr
    exact ⟨_, _, affords_pair hstart hstart' fun _ _ hs ht => ⟨⟨hs, ht⟩, rfl⟩,
      Buffered.affords (Intersection.affords_zigZag hl hr)⟩
  | .sortedMerge left right, _, ⟨hl, hr⟩ => by
    obtain ⟨I, budget, hstart, hl⟩ := Plan.affords hstore left hl
    obtain ⟨J, reserve, hstart', hr⟩ := Plan.affords hstore right hr
    exact ⟨_, _, affords_pair hstart hstart' fun _ _ hs ht => ⟨⟨hs, ht⟩, rfl⟩,
      Buffered.affords (Intersection.affords_sortedMerge hl hr)⟩
  | .union left right, _, ⟨hl, hr⟩ => by
    obtain ⟨I, budget, hstart, hl⟩ := Plan.affords hstore left hl
    obtain ⟨J, reserve, hstart', hr⟩ := Plan.affords hstore right hr
    exact ⟨_, _, affords_pair hstart hstart' fun _ _ hs ht => ⟨⟨hs, ht⟩, rfl⟩,
      Buffered.affords (UnionState.affords hl hr)⟩
  | .filter base steps, _, ⟨hbase, hsteps⟩ => by
    obtain ⟨I, budget, hstart, hbase⟩ := Plan.affords hstore base hbase
    obtain ⟨J, reserve, hinitial, hcost, htests⟩ := FilterStep.costs_all hstore steps hsteps
    refine ⟨_, _, (hstart.add (FilterStep.scanBounds g.store steps)).bind fun s hs => ?_,
      Buffered.affords (Filter.affords hbase htests)⟩
    exact .pure ⟨hs, hinitial⟩ (Nat.add_le_add_left hcost _)
  | .map base mapping, _, hbase => by
    obtain ⟨I, budget, hstart, hbase⟩ := Plan.affords hstore base hbase
    exact ⟨_, _, affords_single hstart fun _ hs => ⟨hs, rfl⟩, Buffered.affords (MapEach.affords hbase fun _ => rfl)⟩

theorem FilterStep.costs (hstore : g.store.Consistent) : (step : FilterStep) → step.Frugal →
    ((step.check limit).tester g).Costs (step.check limit).initial (step.scanBound g.store)
  | .predicate condition _, hpoint =>
    ⟨_, _, trivial, Nat.le_refl 0, Tester.affords_point fun id => Condition.scans_satisfies hpoint id⟩
  | .membership plan _, hfrugal => by
    obtain ⟨I, budget, hstart, h⟩ := Plan.affords hstore plan hfrugal
    exact ⟨_, _, .notYet, Nat.le_refl _, Tester.affords_member hstart h⟩
  | .materialized plan, hfrugal => by
    obtain ⟨I, budget, hstart, h⟩ := Plan.affords hstore plan hfrugal
    exact ⟨_, _, .notYet, Nat.le_refl _, Tester.affords_gather hstart h⟩

theorem FilterStep.costs_all (hstore : g.store.Consistent) : (steps : List FilterStep) → FilterStep.AllFrugal steps →
    (Check.testers g (FilterStep.checks limit steps)).Costs (Check.initials (FilterStep.checks limit steps))
      (FilterStep.scanBounds g.store steps)
  | [], _ => ⟨_, _, trivial, Nat.le_refl 0, Tester.affords_always⟩
  | step :: rest, ⟨hstep, hrest⟩ => by
    obtain ⟨I, budget, hinitial, hcost, htest⟩ := FilterStep.costs hstore step hstep
    obtain ⟨J, reserve, hinitials, hcosts, htests⟩ := FilterStep.costs_all hstore rest hrest
    exact ⟨_, _, ⟨hinitial, hinitials⟩, Nat.add_le_add hcost hcosts, htest.both htests⟩

end

end Cursors

/-! ### Plans of conditions -/

namespace Plan

/-- A plan that may be sought may be read forward. -/
theorem frugal_forward : (plan : Plan) → plan.Frugal true → plan.Frugal false
  | .traversal _, _ => rfl
  | .zigZag _ _, h => h
  | .sortedMerge left right, h | .union left right, h => ⟨frugal_forward left h.1, frugal_forward right h.2⟩
  | .filter base _, h => ⟨frugal_forward base h.1, h.2⟩
  | .map base _, h => frugal_forward base h
  | .empty, _ | .targetSet _, _ | .fullScan, _ | .typeScan _, _ | .indexLookup _ _ _, _ | .incidence _, _ => trivial

theorem frugal_filtered {sought : Bool} {base : Plan} {steps : List FilterStep} :
    (filtered base steps).Frugal sought ↔ base.Frugal sought ∧ ∀ step ∈ steps, step.Frugal := by
  rw [← FilterStep.allFrugal_iff]
  cases steps with
  | nil => simp [filtered, FilterStep.AllFrugal]
  | cons step rest => rfl

end Plan

/-- The plan of a prepared condition is frugal. -/
theorem Planner.frugal_of_prepare {p : Planner} {c d : Condition} {plan : Plan} (hd : p.prepare c = .ok d)
    (h : p.plan d = .ok plan) : plan.Frugal false := by
  have hinvariant : p.Invariant (fun sought plan => plan.Frugal sought) FilterStep.Frugal := {
    set := fun _ plan hset => by cases plan <;> trivial
    walk := fun _ => rfl
    forward := Plan.frugal_forward
    zigZag := fun _ _ hl hr => ⟨hl, hr⟩
    sortedMerge := fun _ _ hl hr => ⟨hl, hr⟩
    union := fun _ _ _ hl hr => ⟨hl, hr⟩
    filtered := fun _ _ _ hbase hsteps => Plan.frugal_filtered.mpr ⟨hbase, hsteps⟩
    map := fun _ _ hbase => hbase
    tested := fun _ _ hpoint => hpoint
    probed := fun _ _ _ _ _ _ hplan => hplan
    collected := fun _ _ _ _ _ hplan => hplan }
  exact hinvariant.of_prepare hd h

end HyperQuery
