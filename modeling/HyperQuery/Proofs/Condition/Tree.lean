import HyperQuery.Proofs.Condition.Truth

/-!
# Conditions as trees

Conjunctions, disjunctions, negations and mappings are made of other conditions. What is left when all of them are
entered are the constraints of a condition (`Condition.constraints`), and properties of conditions follow by induction
over the four (`Condition.treeInduction`).
-/

namespace HyperQuery

namespace Condition

/-- Whether the condition is made of other conditions. -/
def isCompound : Condition → Bool
  | .and _ | .or _ | .not _ | .map _ _ => true
  | _ => false

theorem isCombinator_of_not_isCompound {c : Condition} (h : c.isCompound = false) : c.isCombinator = false := by
  cases c <;> first | rfl | simp [isCompound] at h

mutual

/-- The constraints at any depth, under negations and mappings as well. -/
def constraints : Condition → List Condition
  | .and conjuncts => constraintsOf conjuncts
  | .or arms => constraintsOf arms
  | .not operand => constraints operand
  | .map operand _ => constraints operand
  | leaf => [leaf]

/-- The constraints of the conditions of a list. -/
def constraintsOf : List Condition → List Condition
  | [] => []
  | c :: rest => constraints c ++ constraintsOf rest

end

theorem mem_constraintsOf {l : Condition} {cs : List Condition} :
    l ∈ constraintsOf cs ↔ ∃ c ∈ cs, l ∈ c.constraints := by
  induction cs with
  | nil => simp [constraintsOf]
  | cons c rest ih => simp [constraintsOf, ih]

theorem constraints_of_not_isCompound {c : Condition} (h : c.isCompound = false) : c.constraints = [c] := by
  cases c with
  | and cs | or cs => simp [isCompound] at h
  | not c => simp [isCompound] at h
  | map c m => simp [isCompound] at h
  | _ => rfl

mutual

/-- Induction over all conditions that are made of others. -/
@[elab_as_elim]
theorem treeInduction {P : Condition → Prop} (and : ∀ cs, (∀ c ∈ cs, P c) → P (.and cs))
    (or : ∀ cs, (∀ c ∈ cs, P c) → P (.or cs)) (not : ∀ c, P c → P (.not c)) (map : ∀ c m, P c → P (.map c m))
    (leaf : ∀ c, c.isCompound = false → P c) : (c : Condition) → P c
  | .and conjuncts => and conjuncts (treeInductionList and or not map leaf conjuncts)
  | .or arms => or arms (treeInductionList and or not map leaf arms)
  | .not operand => not operand (treeInduction and or not map leaf operand)
  | .map operand mapping => map operand mapping (treeInduction and or not map leaf operand)
  | .any | .nothing | .ofType _ | .ofTypePlus _ | .value _ _ | .typedValue _ _ _ | .part _ _ _
  | .indexedPart _ _ _ _ _ | .incident _ | .link _ | .orderedLink _ | .targetOf _ | .subsumes _ | .subsumed _
  | .walk _ | .predicate _ => leaf _ rfl

private theorem treeInductionList {P : Condition → Prop} (and : ∀ cs, (∀ c ∈ cs, P c) → P (.and cs))
    (or : ∀ cs, (∀ c ∈ cs, P c) → P (.or cs)) (not : ∀ c, P c → P (.not c)) (map : ∀ c m, P c → P (.map c m))
    (leaf : ∀ c, c.isCompound = false → P c) : (cs : List Condition) → ∀ c ∈ cs, P c
  | [], _, hc => absurd hc (by simp)
  | c :: rest, d, hd => by
    rcases List.mem_cons.mp hd with hdc | hd
    · rw [hdc]
      exact treeInduction and or not map leaf c
    · exact treeInductionList and or not map leaf rest d hd

end

end Condition

end HyperQuery
