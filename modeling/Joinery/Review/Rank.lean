import Joinery.Linkage.Slope
import Joinery.Newton.Correction
/-!
# Rank

How many of the slopes that tell something are independent: the singular values
that stand out above the rounding errors of the largest. Where the singular values
come from is left open.
-/

namespace Joinery.Review

open Joinery.Dense

variable {α : Type} [Scalar α]

/-- How many singular values of a matrix with `rows` rows and `cols` columns
stand out. -/
def countStanding (rows cols : Nat) (values : List α) : Nat :=
  let largest := values.foldl Arithmetic.max 0
  let bound := largest * ((Nat.max rows cols : Nat) : α) * 2.220446049250313e-16
  (values.filter fun v => bound < v).length

/-- The rank of the rows that tell something, and how many such rows there are,
by the singular values that `singularValues?` finds. -/
def rankOf? (singularValues? : Matrix α → Except Breach (List α)) (slopes : Matrix α) :
    Except Breach (Nat × Nat) :=
  let rows := Newton.tellingRows slopes
  if rows.isEmpty ∨ slopes.cols = 0 then .ok (0, 0)
  else do
    let told := slopes.selectRows rows
    let values ← singularValues? told
    return (countStanding told.rows told.cols values, told.rows)

end Joinery.Review
