/-!
# Comparisons

The operators of a search, and the direction in which their rows are read.
-/

namespace TableIndex

inductive Direction
  | forward
  | backward
  deriving DecidableEq, Repr, Inhabited

inductive Comparison
  | eq
  | ge
  | gt
  | le
  | lt
  deriving DecidableEq, Repr

namespace Comparison

/-- Rows are read from the bound on, away from it. -/
def direction : Comparison → Direction
  | eq | ge | gt => .forward
  | le | lt => .backward

/-- Whether a row accepts the operator, by its order to the key. -/
def accepts (c : Comparison) (o : Ordering) : Bool :=
  match c with
  | eq => o == .eq
  | ge => o != .lt
  | gt => o == .gt
  | le => o != .gt
  | lt => o == .lt

def render : Comparison → String
  | eq => "="
  | ge => ">="
  | gt => ">"
  | le => "<="
  | lt => "<"

end Comparison
end TableIndex
