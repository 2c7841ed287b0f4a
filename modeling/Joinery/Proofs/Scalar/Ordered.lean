import Mathlib
import Joinery.Scalar.Basic
/-!
# Ordered fields as scalars

What takes no roots and no angles can be computed in any ordered field: nothing is
rounded, everything is finite, and every number equals itself. The real numbers have the
operations that they have as an ordered field.
-/

namespace Joinery.Ordered

variable {K : Type} [Field K] [LinearOrder K]

/-- The operations of an ordered field. -/
scoped instance (priority := low) arithmetic : Arithmetic K where
  decLt := inferInstance
  decLe := inferInstance
  beq x y := decide (x = y)
  abs x := |x|
  isFinite _ := true

@[simp]
theorem isNaN_eq (x : K) : Arithmetic.isNaN x = false := by
  simp [Arithmetic.isNaN, BEq.beq]

@[simp]
theorem max_eq (x y : K) : Arithmetic.max x y = max x y := by
  unfold Arithmetic.max
  rw [isNaN_eq]
  split
  case isTrue h => exact (max_eq_right (le_of_lt h)).symm
  case isFalse h => exact (max_eq_left (not_lt.1 h)).symm

theorem beq_iff {x y : K} : (x == y) = true ↔ x = y := by
  show decide (x = y) = true ↔ _
  rw [decide_eq_true_iff]

/-! ## Sums -/

section Sums

variable {n : Nat} (g : Nat → K) (first : K)

theorem foldl_add : (List.range n).foldl (fun sum j => sum + g j) first =
    first + ∑ j ∈ Finset.range n, g j := by
  induction n with
  | zero => simp
  | succ n ih =>
    rw [List.range_succ, List.foldl_append, ih, Finset.sum_range_succ]
    exact add_assoc _ _ _

theorem foldl_sub : (List.range n).foldl (fun sum j => sum - g j) first =
    first - ∑ j ∈ Finset.range n, g j := by
  induction n with
  | zero => simp
  | succ n ih =>
    rw [List.range_succ, List.foldl_append, ih, Finset.sum_range_succ]
    exact sub_sub _ _ _

end Sums

end Joinery.Ordered
