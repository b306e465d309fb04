import HyperQuery.Condition.Basic

/-!
# Disjunctive normal form

`Condition.arms` multiplies a condition out into a list of arms, each a list of conditions that are neither
conjunctions nor disjunctions; negations and mappings are not entered. `Condition.toNormalForm` puts the arms
together again: a leaf, a conjunction of leaves, or a disjunction of such.
-/

namespace HyperQuery.Condition

/-- The conjunction of a list, without a combinator around fewer than two conditions. -/
def conjunction : List Condition → Condition
  | [] => .any
  | [c] => c
  | cs => .and cs

/-- The disjunction of a list, without a combinator around fewer than two conditions. -/
def disjunction : List Condition → Condition
  | [] => .nothing
  | [c] => c
  | cs => .or cs

mutual

/-- The arms of a condition. An empty conjunction is the arm of the condition `any`, an empty disjunction that of
`nothing`. -/
def arms : Condition → List (List Condition)
  | .and [] => [[.any]]
  | .and (c :: cs) => armProducts (c :: cs)
  | .or [] => [[.nothing]]
  | .or (c :: cs) => armLists (c :: cs)
  | leaf => [[leaf]]

/-- One arm of each condition, joined in every combination; the arms of the first condition vary slowest. -/
def armProducts : List Condition → List (List Condition)
  | [] => [[]]
  | c :: cs => (arms c).flatMap fun arm => (armProducts cs).map fun rest => arm ++ rest

/-- The arms of all conditions. -/
def armLists : List Condition → List (List Condition)
  | [] => []
  | c :: cs => arms c ++ armLists cs

end

/-- The disjunctive normal form. -/
def toNormalForm (c : Condition) : Condition := disjunction (c.arms.map conjunction)

/-- Whether the condition is a leaf or a conjunction of leaves. -/
def isArm : Condition → Bool
  | .and conjuncts => conjuncts.all fun c => !c.isCombinator
  | c => !c.isCombinator

/-- Whether the condition is in disjunctive normal form. -/
def isNormalForm : Condition → Bool
  | .or arms => arms.all isArm
  | c => isArm c

end HyperQuery.Condition
