import Joinery.Newton.Correction
import Joinery.Proofs.Checked
import Joinery.Proofs.Dense.Blank
/-!
# What a correction leaves alone

A variable whose column of slopes is blank gets a correction of zero by every
method, whatever stands in the other columns. Balancing the rows before does not
change that.
-/

namespace Joinery.Newton

open Joinery.Dense Arithmetic LawfulOrder LawfulArithmetic

variable {α : Type} [Scalar α] [LawfulArithmetic α] {slopes : Matrix α} {j : Nat}

theorem balanced_blank (h : slopes.BlankColumn j) (hj : j < slopes.cols) (deviations : Array α) :
    (balanced slopes deviations).1.BlankColumn j := by
  intro i hi
  have hi' : i < slopes.rows := hi
  unfold balanced
  dsimp only
  rw [Matrix.entry_ofFn _ hi' hj]
  split
  · exact blank_mul_left (h i hi')
  · exact h i hi'

omit [LawfulArithmetic α] in
theorem tellingRows_lt {i : Nat} (hi : i ∈ tellingRows slopes) : i < slopes.rows := by
  unfold tellingRows at hi
  rw [List.mem_toArray, List.mem_filter, List.mem_range] at hi
  exact hi.1

omit [LawfulArithmetic α] in
/-- The rows that tell something are there. -/
theorem selectRows?_tellingRows (slopes : Matrix α) :
    slopes.selectRows? (tellingRows slopes) = .ok (slopes.selectRows (tellingRows slopes)) := by
  refine if_pos (Array.all_eq_true'.2 fun i hi => ?_)
  rw [Matrix.hasRow, decide_eq_true_iff, slopes.size_data]
  exact Nat.mul_le_mul_right slopes.cols (tellingRows_lt hi)

/-- By its shape, a system is solved in one of three ways. -/
theorem solveByShape_blank {target step : Array α} {pivotThreshold : α} {method : Method}
    {singular : Nat} (h : slopes.BlankColumn j) (hj : j < slopes.cols)
    (hpivot : 0 < pivotThreshold)
    (hs : solveByShape slopes target pivotThreshold = .ok (step, method, singular)) :
    Blank (step.getD j 0) := by
  unfold solveByShape at hs
  split at hs
  case isTrue hsquare =>
    obtain ⟨factors, hf, hs⟩ := bind_eq_ok hs
    obtain ⟨-, rfl⟩ := unless_eq_ok hf
    obtain ⟨x, hx, hs⟩ := bind_eq_ok hs
    obtain ⟨-, rfl⟩ := unless_eq_ok hx
    cases hs
    -- square: the column is found singular, and the unknown of it is zero
    have hj' : j < slopes.rows := by rw [hsquare]; exact hj
    rw [Factors.solve_singular (by rw [Factors.rows_ofMatrix]; exact hj')
      (Factors.singular_ofMatrix hsquare.symm h hj' hpivot)]
    exact blank_zero
  case isFalse =>
    split at hs
    case isTrue =>
      obtain ⟨factors, hf, hs⟩ := bind_eq_ok hs
      obtain ⟨-, rfl⟩ := unless_eq_ok hf
      obtain ⟨pulled, hp, hs⟩ := bind_eq_ok hs
      obtain ⟨x, hx, hs⟩ := bind_eq_ok hs
      obtain ⟨-, rfl⟩ := unless_eq_ok hx
      cases hs
      -- tall: the same for the products of the columns, which keep the blank one
      rw [Factors.solve_singular (by rw [Factors.rows_ofMatrix]; exact hj)
        (Factors.singular_ofMatrix rfl (h.gram hj) hj hpivot)]
      exact blank_zero
    case isFalse =>
      obtain ⟨factors, -, hs⟩ := bind_eq_ok hs
      obtain ⟨shares, -, hs⟩ := bind_eq_ok hs
      obtain ⟨x, hx, hs⟩ := bind_eq_ok hs
      obtain ⟨-, rfl⟩ := unless_eq_ok hx
      cases hs
      -- wide: each unknown is a sum over its column
      exact h.transposeMulVec shares

/-- A step that is taken has a zero wherever the solution was blank. -/
theorem onlyFinite_blank {step : Array α} (h : Blank (step.getD j 0)) :
    ((Correction.onlyFinite step).getD j 0 == 0) = true := by
  have hzero : ((0 : α) == 0) = true := beq_refl isFinite_zero
  unfold Correction.onlyFinite
  split
  case isTrue hfinite =>
    refine h.beq_zero ?_
    rw [Array.getD_eq_getD_getElem?]
    cases hj : step[j]? with
    | none => exact isFinite_zero
    | some x => exact Array.all_eq_true_iff_forall_mem.1 hfinite x (Array.mem_of_getElem? hj)
  case isFalse =>
    rw [Array.getD_eq_getD_getElem?, Array.getElem?_map]
    cases step[j]? <;> exact hzero

/-- The correction of a variable without slopes is zero. -/
theorem correction?_blank {deviations : Array α} {pivotThreshold : α} {k : Correction α}
    (h : slopes.BlankColumn j) (hj : j < slopes.cols) (hpivot : 0 < pivotThreshold)
    (hk : correction? slopes deviations pivotThreshold = .ok k) :
    (k.step.getD j 0 == 0) = true := by
  unfold correction? at hk
  split at hk
  case isTrue => cases hk
  case isFalse =>
    dsimp only at hk
    split at hk
    case isTrue =>
      cases hk
      unfold Correction.none
      rw [Array.getD_eq_getD_getElem?, Array.getElem?_replicate, if_pos hj]
      exact beq_refl isFinite_zero
    case isFalse =>
      obtain ⟨told, ht, hk⟩ := bind_eq_ok hk
      obtain ⟨-, rfl⟩ := unless_eq_ok ht
      obtain ⟨⟨step, method, singular⟩, hs, hk⟩ := bind_eq_ok hk
      cases hk
      have htold := h.selectRows hj fun i hi => tellingRows_lt hi
      exact onlyFinite_blank (solveByShape_blank htold hj hpivot hs)

end Joinery.Newton
