import Mathlib
import Joinery.Dense.Vector
import Joinery.Proofs.Scalar.Laws
import Joinery.Proofs.Scalar.Ordered
/-!
# Exact numbers as scalars

The real numbers are scalars on which nothing is rounded and everything is
finite. They obey all laws, and more: the length of a vector bounds its entries.
-/

namespace Joinery

noncomputable instance : Arithmetic ℝ where
  decLt := inferInstance
  decLe := inferInstance
  beq x y := decide (x = y)
  abs x := |x|
  isFinite _ := true

noncomputable instance : Scalar ℝ where
  sqrt := Real.sqrt
  sin := Real.sin
  cos := Real.cos
  atan2 y x := Complex.arg ⟨x, y⟩
  degree := Real.pi / 180
  radian := 180 / Real.pi

namespace Exact

theorem beq_iff {x y : ℝ} : (x == y) = true ↔ x = y := Ordered.beq_iff

@[simp]
theorem isFinite_eq (x : ℝ) : Arithmetic.isFinite x = true := rfl

theorem isNaN_eq (x : ℝ) : Arithmetic.isNaN x = false := Ordered.isNaN_eq x

theorem not_isNaN {x : ℝ} (h : Arithmetic.isNaN x = true) : False := by
  rw [isNaN_eq] at h
  cases h

theorem blank_iff {x : ℝ} : Blank x ↔ x = 0 := by
  rw [Blank, isNaN_eq]
  simp

end Exact

open Exact

instance : LawfulRoot ℝ where
  refl_left _ := le_refl _
  refl_right _ := le_refl _
  trans := le_trans
  total _ _ := le_total _ _
  lt_iff := lt_iff_le_not_ge
  beq_iff := beq_iff.trans le_antisymm_iff
  refl_of_isFinite _ := le_refl _
  isFinite_zero := rfl
  zero_lt_one := zero_lt_one
  isFinite_one := rfl
  isFinite_between _ _ _ _ := rfl
  isFinite_add _ := ⟨rfl, rfl⟩
  isFinite_sub _ := ⟨rfl, rfl⟩
  isFinite_mul _ := ⟨rfl, rfl⟩
  isNaN_add h := (h.elim not_isNaN not_isNaN).elim
  isNaN_sub h := (h.elim not_isNaN not_isNaN).elim
  isNaN_mul h := (h.elim not_isNaN not_isNaN).elim
  isNaN_div h := (h.elim not_isNaN not_isNaN).elim
  isNaN_abs h := (not_isNaN h).elim
  blank_sub_self x := blank_iff.2 (sub_self x)
  blank_add hx hy := blank_iff.2 (by rw [blank_iff.1 hx, blank_iff.1 hy]; exact add_zero 0)
  blank_sub hx hy := blank_iff.2 (by rw [blank_iff.1 hx, blank_iff.1 hy]; exact sub_self 0)
  blank_mul_left hx := blank_iff.2 (by rw [blank_iff.1 hx]; exact zero_mul _)
  blank_mul_right hy := blank_iff.2 (by rw [blank_iff.1 hy]; exact mul_zero _)
  blank_div hx := blank_iff.2 (by rw [blank_iff.1 hx]; exact zero_div _)
  blank_abs hx := blank_iff.2 (by rw [blank_iff.1 hx]; exact abs_zero)
  add_zero {x} _ _ hz := beq_iff.2 (by rw [beq_iff.1 hz]; exact add_zero x)
  mul_zero {x} _ _ hz := beq_iff.2 (by rw [beq_iff.1 hz]; exact mul_zero x)
  mul_nonneg hx hy _ := mul_nonneg hx hy
  mul_le_one _ hx hy hy' := mul_le_one₀ hx hy hy'
  mul_pos_of_one_le hx hy := mul_pos hx (lt_of_lt_of_le zero_lt_one hy)
  isFinite_sqrt _ := rfl
  isNaN_sqrt h := (not_isNaN h).elim
  sqrt_not_neg x := not_lt.2 (Real.sqrt_nonneg x)

instance : LawfulGrowth ℝ where
  le_mul_of_one_le hx _ _ hy := le_mul_of_one_le_right hx hy
  mul_le_of_le_one hx _ _ hy := mul_le_of_le_one_right hx hy

instance : LawfulAngles ℝ where
  isNaN_sin h := by cases h
  isNaN_cos h := by cases h
  isNaN_atan2 h := (h.elim not_isNaN not_isNaN).elim

namespace Exact

/-- The length of a vector of exact numbers is the root of its sum of squares. -/
theorem norm_eq (v : Array ℝ) : Dense.norm v = Real.sqrt (v.toList.map fun x => x * x).sum := by
  have hzip : (Array.zipWith (· * ·) v v).toList = v.toList.map fun x => x * x := by
    rw [Array.toList_zipWith]
    exact List.zipWith_self
  show Real.sqrt ((Array.zipWith (· * ·) v v).foldl (· + ·) 0) = _
  rw [← Array.foldl_toList, hzip, ← List.sum_eq_foldl]

/-- No entry is larger than the length. -/
theorem abs_le_norm {v : Array ℝ} {x : ℝ} (h : x ∈ v.toList) : |x| ≤ Dense.norm v := by
  rw [norm_eq]
  apply Real.abs_le_sqrt
  rw [sq]
  refine List.single_le_sum ?_ _ (List.mem_map_of_mem h)
  intro y hy
  obtain ⟨z, -, rfl⟩ := List.mem_map.1 hy
  exact mul_self_nonneg z

end Exact

end Joinery
