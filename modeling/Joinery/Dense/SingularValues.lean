import Joinery.Dense.Matrix
import Joinery.Dense.Reflection
/-!
# Singular values

The band of a matrix, written beside a diagonal of zeros on both sides, makes a
symmetric matrix whose eigenvalues are the singular values, their opposites
and zeros. How many of them exceed a number shows in the signs of its pivots
(`countAbove`), so each singular value is found by halving an interval.
-/

namespace Joinery.Dense

variable {α : Type} [Scalar α]

/-- How many of the pivots after `pivot` are positive, for the symmetric matrix
with `-x` on its diagonal and the band beside it. A pivot of zero counts as
negative; it is moved off zero, as the next one is divided by it. -/
def countPositive (x : α) : List α → α → Nat
  | [], _ => 0
  | b :: rest, pivot =>
    let exact := -x - b * b / pivot
    let next := if exact == 0 then -1e-100 else exact
    (if 0 < next then 1 else 0) + countPositive x rest next

/-- How many singular values of a matrix with the given band exceed `x`, where
`x` is positive. -/
def countAbove (band : List α) (x : α) : Nat := countPositive x band (-x)

/-- The singular value between `lo` and `hi` that `n` others exceed, with the
interval halved as often as `steps` says. -/
def locate (band : List α) (n : Nat) : (steps : Nat) → (lo hi : α) → α
  | 0, lo, _ => lo
  | steps + 1, lo, hi =>
    let middle := (lo + hi) / Arithmetic.twice 1
    if countAbove band middle ≤ n then locate band n steps lo middle
    else locate band n steps middle hi

/-- A number that no singular value exceeds: no row of the symmetric matrix has
more than two entries of the band. -/
def reach (band : List α) : α :=
  Arithmetic.twice (band.foldl (fun largest b => Arithmetic.max largest (Arithmetic.abs b)) 0)

namespace Matrix

/-- The singular values from the largest on, as many as the matrix has rows or
columns, whichever are fewer. The entries are brought to magnitudes up to one
first. -/
def singularValues (m : Matrix α) : List α :=
  let largest := m.maxAbs
  let unit := if largest == 0 then 1 else largest
  let wide := if m.rows ≤ m.cols then m else m.transpose
  let band := band ((List.range wide.rows).map fun i => (wide.row i).map (· / unit))
  (List.range wide.rows).map fun n => locate band n 64 0 (reach band) * unit

/-- The singular values in their order. A matrix with an infinite entry has
values that are not numbers, and two of these have no order. -/
def singularValues? (m : Matrix α) : Except Breach (List α) :=
  let values := m.singularValues
  Breach.unless (values.length < 2 ∨ values.all fun v => !Arithmetic.isNaN v) .unordered values

end Matrix

end Joinery.Dense
