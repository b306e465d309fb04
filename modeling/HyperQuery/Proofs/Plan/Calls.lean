import HyperQuery.Proofs.Condition.Distribution
import HyperQuery.Proofs.Plan.Success

/-!
# Compiling makes finitely many calls

A call is compiling, preparing, normalizing, simplifying or planning a condition, or one of the steps that these are made
of. `Planner.calls` lists the calls that a call makes itself, one after the other, and `Planner.Takes` counts all that are
made in the course of it; a call that never returned would have no count. Normalizing goes on with branches that are no
parts of the condition, and planning with operands that have been prepared, which can be far larger than they were, but
normalizing ends (`Condition.exists_multipliesTo`) and preparing does not nest mappings deeper
(`Planner.mapDepth_of_prepare`). So compiling returns for every condition (`Planner.takes_of_compile`).
-/

namespace HyperQuery

/-- A call that is made when a condition is compiled. -/
inductive Call
  | compile (c : Condition)
  | prepare (c : Condition)
  /-- Bringing a condition into normal form. -/
  | normalize (c : Condition)
  /-- Distributing a conjunction over its first disjunction. -/
  | distribute (conjuncts : List Condition)
  /-- Normalizing the arms of a disjunction. -/
  | collect (arms : List Condition)
  | simplify (c : Condition)
  | simplifyConjunction (conjuncts : List Condition)
  | simplifyArms (arms : List Condition)
  /-- Sorting a condition into a conjunction. -/
  | absorb (k : Conjunction) (c : Condition)
  | plan (c : Condition)
  | planLeaf (c : Condition)
  | planConjunction (conjuncts : List Condition)

namespace Call

/-- The elements that are tried when one after the other is, up to the first one that fails. -/
def tried {α β ε : Type} (f : α → Except ε β) : List α → List α
  | [] => []
  | x :: rest =>
    match f x with
    | .ok _ => x :: tried f rest
    | .error _ => [x]

theorem mem_of_mem_tried {α β ε : Type} {f : α → Except ε β} {x : α} {xs : List α} (h : x ∈ tried f xs) : x ∈ xs := by
  induction xs with
  | nil => exact h
  | cons y rest ih =>
    unfold tried at h
    split at h
    · rcases List.mem_cons.mp h with rfl | h
      · exact List.mem_cons_self
      · exact List.mem_cons_of_mem y (ih h)
    · exact List.mem_singleton.mp h ▸ List.mem_cons_self

/-- The calls of distributing, with the conjuncts that are normalized already. -/
def ofDistributing (kept : List Condition) : List Condition → List Call
  | [] => []
  | c :: cs =>
    .normalize c ::
      match c.toNormalForm with
      | .and nested => ofDistributing (kept ++ nested) cs
      | .or arms => [.collect (arms.map fun arm => .and (kept ++ arm :: cs))]
      | leaf => ofDistributing (kept ++ [leaf]) cs

/-- The calls of sorting conditions into a conjunction, up to the first one that fails or with which nothing matches. -/
def ofAbsorbing (s : Store) (k : Conjunction) : List Condition → List Call
  | [] => []
  | c :: cs =>
    .absorb k c ::
      match c.absorb s k with
      | .ok (some k) => ofAbsorbing s k cs
      | _ => []

theorem exists_of_mem_ofAbsorbing {s : Store} {k : Conjunction} {cs : List Condition} {a : Call}
    (h : a ∈ ofAbsorbing s k cs) : ∃ k, ∃ c ∈ cs, a = .absorb k c := by
  induction cs generalizing k with
  | nil => cases h
  | cons c cs ih =>
    rcases List.mem_cons.mp h with rfl | h
    · exact ⟨k, c, by simp, rfl⟩
    · split at h
      · obtain ⟨k, d, hd, ha⟩ := ih h
        exact ⟨k, d, by simp [hd], ha⟩
      · cases h

end Call

/-- The conjuncts that are planned, in that order: those to be intersected, or else the one to enumerate, and then those
to be probed and those to be collected. -/
def Buckets.planned (b : Buckets) : List Conjunct :=
  if (b.seekable ++ b.ordered).isEmpty then
    match Conjunct.takeLeast Conjunct.expectsFewer b.collected with
    | some (least, others) => least :: (b.probed ++ others)
    | none =>
      match Conjunct.takeLeast Conjunct.testsCheaper b.probed with
      | some (least, others) => least :: others
      | none => []
  else b.drawn

theorem Buckets.mem_drawn_of_mem_planned {b : Buckets} {x : Conjunct} (h : x ∈ b.planned) : x ∈ b.drawn := by
  unfold planned at h
  split at h
  · split at h
    · rename_i least others hleast
      have hperm := Conjunct.perm_of_takeLeast hleast
      have hx : x ∈ b.probed ∨ x ∈ b.collected := by
        rw [hperm.mem_iff]
        simp only [List.mem_cons, List.mem_append] at h ⊢
        tauto
      rcases hx with hx | hx <;> simp [drawn, hx]
    · split at h
      · rename_i least others hleast
        have hx : x ∈ b.probed := (Conjunct.perm_of_takeLeast hleast).mem_iff.mpr h
        simp [drawn, hx]
      · cases h
  · exact h

namespace Planner

open Condition

/-- The conjuncts of a conjunction with their estimates and plans. -/
def conjunctsFor (p : Planner) (cs : List Condition) (es : List Estimate) : List Conjunct :=
  (cs.zip (es.zip (cs.map p.plan))).map fun (c, e, plan) => ⟨c, e, plan⟩

/-- The calls that a call makes, in their order. What is called depends on what the calls before it have returned. -/
def calls (p : Planner) : Call → List Call
  | .compile c =>
    .prepare c ::
      match p.prepare c with
      | .ok d => if (d.estimate p.graph).isOk then [.plan d] else []
      | .error _ => []
  | .prepare c => [.normalize c, .simplify c.toNormalForm]
  | .normalize (.and cs) => [.distribute cs]
  | .normalize (.or cs) => [.collect cs]
  | .normalize _ => []
  | .distribute cs => Call.ofDistributing [] cs
  | .collect cs => cs.map .normalize
  | .simplify (.and cs) => [.simplifyConjunction cs]
  | .simplify (.or cs) => [.simplifyArms cs]
  | .simplify _ => []
  | .simplifyConjunction cs => Call.ofAbsorbing p.graph.store .empty cs
  | .simplifyArms cs => (Call.tried (Condition.simplify p.graph.store) cs).map .simplify
  | .absorb k (.and cs) => Call.ofAbsorbing p.graph.store k cs
  | .absorb _ (.or cs) => [.simplify (.or cs)]
  | .absorb _ _ => []
  | .plan .nothing => []
  | .plan (.or cs) => (Call.tried p.plan cs).map .plan
  | .plan (.and cs) => [.planConjunction cs]
  | .plan (.map operand _) =>
    .prepare operand ::
      match p.prepare operand with
      | .ok d => [.plan d]
      | .error _ => []
  | .plan leaf => [.planLeaf leaf]
  | .planLeaf .nothing => [.plan .nothing]
  | .planLeaf (.and cs) => [.plan (.and cs)]
  | .planLeaf (.or cs) => [.plan (.or cs)]
  | .planLeaf (.map operand mapping) => [.plan (.map operand mapping)]
  | .planLeaf _ => []
  | .planConjunction cs =>
    match estimates p.graph cs with
    | .ok es =>
      (Call.tried Conjunct.plan ((p.conjunctsFor cs es).foldl Buckets.add .empty).settle.planned).map
        fun x => .plan x.condition
    | .error _ => []

mutual

/-- The call returns, and with it so many calls have been made. -/
inductive Takes (p : Planner) : Call → Nat → Prop
  | made {a : Call} {n : Nat} : TakeAll p (p.calls a) n → Takes p a (n + 1)

/-- The calls return, and with them so many calls have been made. -/
inductive TakeAll (p : Planner) : List Call → Nat → Prop
  | nil : TakeAll p [] 0
  | cons {a : Call} {as : List Call} {m n : Nat} : Takes p a m → TakeAll p as n → TakeAll p (a :: as) (m + n)

end

variable {p : Planner} {a : Call} {c d : Condition} {cs : List Condition}

mutual

/-- How many calls are made is determined by the call. -/
theorem Takes.unique {a : Call} {m n : Nat} : p.Takes a m → p.Takes a n → m = n
  | .made h, .made h' => congrArg (· + 1) (TakeAll.unique h h')

theorem TakeAll.unique {as : List Call} {m n : Nat} : p.TakeAll as m → p.TakeAll as n → m = n
  | .nil, .nil => rfl
  | .cons h hs, .cons h' hs' => by rw [Takes.unique h h', TakeAll.unique hs hs']

end

/-- The call returns. -/
def Returns (p : Planner) (a : Call) : Prop := ∃ n, p.Takes a n

/-- A call returns if all the calls return that it makes itself. -/
theorem Returns.of_calls (h : ∀ b ∈ p.calls a, p.Returns b) : p.Returns a := by
  suffices hall : ∀ as, (∀ b ∈ as, p.Returns b) → ∃ n, p.TakeAll as n by
    obtain ⟨n, hn⟩ := hall _ h
    exact ⟨n + 1, .made hn⟩
  intro as has
  induction as with
  | nil => exact ⟨0, .nil⟩
  | cons b as ih =>
    obtain ⟨m, hm⟩ := has b (by simp)
    obtain ⟨n, hn⟩ := ih fun b hb => has b (by simp [hb])
    exact ⟨m + n, .cons hm hn⟩

/-! ### Normalizing -/

theorem returns_collect (h : ∀ c ∈ cs, p.Returns (.normalize c)) : p.Returns (.collect cs) := by
  refine .of_calls fun b hb => ?_
  obtain ⟨c, hc, rfl⟩ := List.mem_map.mp hb
  exact h c hc

/-- Normalizing a condition returns if rewriting it ends. -/
theorem returns_of_multipliesTo (h : MultipliesTo c d) : p.Returns (.normalize c) := by
  refine @MultipliesTo.rec (fun c _ _ => p.Returns (.normalize c))
    (fun kept cs _ _ => ∀ b ∈ Call.ofDistributing kept cs, p.Returns b)
    (fun cs _ _ => ∀ c ∈ cs, p.Returns (.normalize c))
    ?and ?or ?leaf ?keptNil ?keptAnd ?keptOr ?keptLeaf ?nil ?cons c d h
  case and =>
    intro cs d _ ih
    exact .of_calls (List.forall_mem_singleton.mpr (.of_calls ih))
  case or =>
    intro cs ds _ ih
    exact .of_calls (List.forall_mem_singleton.mpr (returns_collect ih))
  case leaf =>
    intro c hc
    cases c with
    | and cs | or cs => cases hc
    | _ => exact .of_calls (List.forall_mem_nil _)
  case keptNil => exact fun {kept} => List.forall_mem_nil _
  case keptAnd =>
    intro kept cs nested c d hc _ ihc ih
    rw [Call.ofDistributing, ← hc.eq_toNormalForm]
    exact List.forall_mem_cons.mpr ⟨ihc, ih⟩
  case keptOr =>
    intro kept cs arms ds c hc _ ihc ih
    rw [Call.ofDistributing, ← hc.eq_toNormalForm]
    exact List.forall_mem_cons.mpr ⟨ihc, List.forall_mem_singleton.mpr (returns_collect ih)⟩
  case keptLeaf =>
    intro kept cs c d l hc hl _ ihc ih
    rw [Call.ofDistributing, ← hc.eq_toNormalForm]
    cases l with
    | and cs | or cs => cases hl
    | _ => exact List.forall_mem_cons.mpr ⟨ihc, ih⟩
  case nil => exact List.forall_mem_nil _
  case cons =>
    intro c d cs ds _ _ ihc ih
    exact List.forall_mem_cons.mpr ⟨ihc, ih⟩

theorem returns_normalize (p : Planner) (c : Condition) : p.Returns (.normalize c) := by
  obtain ⟨d, hd⟩ := exists_multipliesTo c
  exact returns_of_multipliesTo hd

/-! ### Simplifying -/

private theorem returns_simplify_and_absorb (p : Planner) (c : Condition) :
    p.Returns (.simplify c) ∧ ∀ k, p.Returns (.absorb k c) := by
  induction c using combinatorInduction with
  | and cs ih =>
    have hcs : ∀ k, ∀ b ∈ Call.ofAbsorbing p.graph.store k cs, p.Returns b := by
      intro k b hb
      obtain ⟨k, c, hc, rfl⟩ := Call.exists_of_mem_ofAbsorbing hb
      exact (ih c hc).2 k
    exact ⟨.of_calls (List.forall_mem_singleton.mpr (.of_calls (hcs .empty))), fun k => .of_calls (hcs k)⟩
  | or cs ih =>
    have harms : p.Returns (.simplifyArms cs) := by
      refine .of_calls fun b hb => ?_
      obtain ⟨c, hc, rfl⟩ := List.mem_map.mp hb
      exact (ih c (Call.mem_of_mem_tried hc)).1
    have hor : p.Returns (.simplify (.or cs)) := .of_calls (List.forall_mem_singleton.mpr harms)
    exact ⟨hor, fun k => .of_calls (List.forall_mem_singleton.mpr hor)⟩
  | leaf c h =>
    cases c with
    | and cs | or cs => cases h
    | _ => exact ⟨.of_calls (List.forall_mem_nil _), fun k => .of_calls (List.forall_mem_nil _)⟩

theorem returns_prepare (p : Planner) (c : Condition) : p.Returns (.prepare c) :=
  .of_calls (List.forall_mem_cons.mpr
    ⟨returns_normalize p c, List.forall_mem_singleton.mpr (returns_simplify_and_absorb p c.toNormalForm).1⟩)

/-! ### Planning -/

theorem condition_mem_of_planned {es : List Estimate} {x : Conjunct}
    (h : x ∈ ((p.conjunctsFor cs es).foldl Buckets.add .empty).settle.planned) : x.condition ∈ cs := by
  have hall : x ∈ ((p.conjunctsFor cs es).foldl Buckets.add .empty).settle.all :=
    Buckets.mem_all_iff.mpr (.inr (Buckets.mem_drawn_of_mem_planned h))
  rw [Buckets.all_settle, Buckets.perm_all_foldl_add.mem_iff, List.mem_append] at hall
  rcases hall with hall | hall
  · simp [Buckets.empty, Buckets.all, Buckets.tested] at hall
  · obtain ⟨⟨c, e, plan⟩, hmem, rfl⟩ := List.mem_map.mp hall
    exact (List.of_mem_zip hmem).1

theorem returns_planConjunction (h : ∀ c ∈ cs, p.Returns (.plan c)) : p.Returns (.planConjunction cs) := by
  refine .of_calls fun b hb => ?_
  rw [calls] at hb
  split at hb
  · obtain ⟨x, hx, rfl⟩ := List.mem_map.mp hb
    exact h _ (condition_mem_of_planned (Call.mem_of_mem_tried hx))
  · cases hb

/-- Planning a condition returns if planning conditions returns in which mappings are nested less deep. -/
private theorem returns_plan_of_shallower (h : ∀ d : Condition, d.mapDepth < c.mapDepth → p.Returns (.plan d)) :
    p.Returns (.plan c) := by
  induction c using combinatorInduction with
  | and cs ih =>
    refine .of_calls (List.forall_mem_singleton.mpr (returns_planConjunction fun c hc => ih c hc fun d hd => h d ?_))
    exact Nat.lt_of_lt_of_le hd (mapDepth_le_mapDepths hc)
  | or cs ih =>
    refine .of_calls fun b hb => ?_
    obtain ⟨c, hc, rfl⟩ := List.mem_map.mp hb
    have hc := Call.mem_of_mem_tried hc
    exact ih c hc fun d hd => h d (Nat.lt_of_lt_of_le hd (mapDepth_le_mapDepths hc))
  | leaf c hleaf =>
    cases c with
    | and cs | or cs => cases hleaf
    | nothing => exact .of_calls (List.forall_mem_nil _)
    | map operand mapping =>
      refine .of_calls (List.forall_mem_cons.mpr ⟨returns_prepare p operand, fun b hb => ?_⟩)
      split at hb
      · rename_i d hd
        rw [List.mem_singleton.mp hb]
        exact h d (Nat.lt_succ_of_le (mapDepth_of_prepare hd))
      · cases hb
    | _ => exact .of_calls (List.forall_mem_singleton.mpr (.of_calls (List.forall_mem_nil _)))

theorem returns_plan (p : Planner) (c : Condition) : p.Returns (.plan c) := by
  suffices h : ∀ n, ∀ c : Condition, c.mapDepth ≤ n → p.Returns (.plan c) from h _ c (Nat.le_refl _)
  intro n
  induction n with
  | zero => exact fun c hc => returns_plan_of_shallower fun d hd => absurd hd (by omega)
  | succ n ih => exact fun c hc => returns_plan_of_shallower fun d hd => ih d (by omega)

/-- Compiling a condition returns after so many calls and no others. What it returns is made of what they return: rewriting
by the first disjunction ends in the normal form, and mapped operands are prepared and planned like the condition
itself. -/
theorem takes_of_compile (p : Planner) (c : Condition) :
    (∃ n, p.Takes (.compile c) n ∧ ∀ m, p.Takes (.compile c) m → m = n) ∧
      (∀ d : Condition, d.MultipliesTo d.toNormalForm) ∧
      ∀ d, p.plan d = p.planWith (fun operand => p.prepare operand >>= p.plan) d := by
  have hreturns : p.Returns (.compile c) := by
    refine .of_calls (List.forall_mem_cons.mpr ⟨returns_prepare p c, fun b hb => ?_⟩)
    split at hb
    · rename_i d hd
      split at hb
      · exact List.mem_singleton.mp hb ▸ returns_plan p d
      · cases hb
    · cases hb
  obtain ⟨n, hn⟩ := hreturns
  exact ⟨⟨n, hn, fun m hm => hm.unique hn⟩, fun d => multipliesTo_iff.mpr rfl, plan_eq p⟩

end Planner

end HyperQuery
