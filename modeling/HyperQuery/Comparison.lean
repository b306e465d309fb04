/-!
# Comparison operators

The five operators that relate a stored value (on the left) to a literal (on the right).
-/

namespace HyperQuery

/-- An operator between a stored value and a literal; `lt` reads "the stored value is less". -/
inductive Comparison
  | eq
  | lt
  | gt
  | lte
  | gte
  deriving DecidableEq

namespace Comparison

/-- Every operator. -/
def all : List Comparison := [.eq, .lt, .gt, .lte, .gte]

/-- Whether the order of the stored value relative to the literal satisfies the operator. -/
def accepts : Comparison → Ordering → Bool
  | .eq, o => o == .eq
  | .lt, o => o == .lt
  | .gt, o => o == .gt
  | .lte, o => o != .gt
  | .gte, o => o != .lt

/-- Whether the operator selects a range of values. -/
def isRange : Comparison → Bool
  | .eq => false
  | _ => true

/-- The operator as written in conditions and plans. -/
def symbol : Comparison → String
  | .eq => "="
  | .lt => "<"
  | .gt => ">"
  | .lte => "<="
  | .gte => ">="

end Comparison

end HyperQuery
