import Mathlib
import Joinery.Proofs.Dense.Solving
import Joinery.Proofs.Newton.Told
import Joinery.Proofs.Scalar.Exact
/-!
# Shortest steps

Which of the three ways a system is solved hangs on its shape only, and without singular
pivots they all find the same kind of step: of those that leave the least squares, the
shortest one (`IsShortest`). There is only one such step, and it does not hang on the
order of the equations.
-/

namespace Joinery.Newton

open Joinery.Dense

variable {n : Nat}

/-- The first `n` entries of an array as a vector. -/
def vec (n : Nat) (a : Array ℝ) : Fin n → ℝ := fun j => a.getD j 0

/-- The vectors of arrays tell them apart. -/
theorem vec_injective {a b : Array ℝ} (ha : a.size = n) (hb : b.size = n)
    (h : vec n a = vec n b) : a = b :=
  ext_getD ha hb fun j hj => congrFun h ⟨j, hj⟩

/-- The length of an array of numbers is that of its vector. -/
theorem norm_eq_vec {a : Array ℝ} (ha : a.size = n) :
    norm a = Real.sqrt (vec n a ⬝ᵥ vec n a) := by
  show Real.sqrt (dot a a) = _
  rw [dot_eq_sum ha ha, Finset.sum_range]
  rfl

theorem sq_norm {a : Array ℝ} (ha : a.size = n) : norm a ^ 2 = vec n a ⬝ᵥ vec n a := by
  rw [norm_eq_vec ha]
  exact Real.sq_sqrt (Finset.sum_nonneg fun j _ => mul_self_nonneg _)

theorem getD_addScaled (share : ℝ) (step : Array ℝ) {point : Array ℝ} {j : Nat}
    (hj : j < point.size) :
    (addScaled share step point).getD j 0 = point.getD j 0 + share * step.getD j 0 := by
  rw [getD_of_lt (by simpa using hj), getD_of_lt hj]
  by_cases hstep : j < step.size <;> simp [addScaled, Array.getD, hstep]

theorem isZero_iff {k : Correction ℝ} (hk : k.step.size = n) :
    k.isZero = true ↔ vec n k.step = 0 := by
  rw [Correction.isZero, Array.all_eq_true]
  constructor
  · intro h
    funext j
    have hj : j < k.step.size := hk ▸ j.isLt
    rw [vec, getD_of_lt hj]
    exact Exact.beq_iff.1 (h j hj)
  · intro h j hj
    have hentry := congrFun h ⟨j, hk ▸ hj⟩
    rw [vec, getD_of_lt hj] at hentry
    exact Exact.beq_iff.2 hentry

/-! ## The shortest step -/

/-- How far an equation is from holding after a step. -/
def Equation.residual (e : Equation ℝ) (x : Fin n → ℝ) : ℝ := vec n e.row ⬝ᵥ x + e.deviation

/-- A step that leaves the least squares, as no change of it makes them less, and the
shortest of these, as it has no part in a direction that no row sees. -/
structure IsShortest (told : List (Equation ℝ)) (x : Fin n → ℝ) : Prop where
  least : ∀ w : Fin n → ℝ, (told.map fun e => e.residual x * (vec n e.row ⬝ᵥ w)).sum = 0
  shortest : ∀ w : Fin n → ℝ, (∀ e ∈ told, vec n e.row ⬝ᵥ w = 0) → x ⬝ᵥ w = 0

namespace IsShortest

variable {told told' : List (Equation ℝ)} {x y : Fin n → ℝ}

/-- There is one shortest step. -/
theorem unique (hx : IsShortest told x) (hy : IsShortest told y) : x = y := by
  have hdifference : ∀ e : Equation ℝ, vec n e.row ⬝ᵥ (x - y) = e.residual x - e.residual y := by
    intro e
    rw [Equation.residual, Equation.residual, add_sub_add_right_eq_sub, dotProduct_sub]
  have hsquares : ∑ i : Fin told.length,
      (vec n told[i].row ⬝ᵥ (x - y)) * (vec n told[i].row ⬝ᵥ (x - y)) = 0 := by
    have hx' := hx.least (x - y)
    have hy' := hy.least (x - y)
    rw [← Fin.sum_univ_fun_getElem] at hx' hy'
    calc ∑ i : Fin told.length, (vec n told[i].row ⬝ᵥ (x - y)) * (vec n told[i].row ⬝ᵥ (x - y))
        = ∑ i : Fin told.length, (told[i].residual x * (vec n told[i].row ⬝ᵥ (x - y)) -
            told[i].residual y * (vec n told[i].row ⬝ᵥ (x - y))) :=
          Finset.sum_congr rfl fun i _ => by rw [← sub_mul, ← hdifference]
      _ = 0 := by
          rw [Finset.sum_sub_distrib]
          exact sub_eq_zero.2 (hx'.trans hy'.symm)
  have hunseen : ∀ e ∈ told, vec n e.row ⬝ᵥ (x - y) = 0 := by
    intro e he
    obtain ⟨i, hi, rfl⟩ := List.getElem_of_mem he
    exact (Finset.sum_mul_self_eq_zero_iff _ _).1 hsquares ⟨i, hi⟩ (Finset.mem_univ _)
  have hself : (x - y) ⬝ᵥ (x - y) = 0 := by
    rw [sub_dotProduct, hx.shortest _ hunseen, hy.shortest _ hunseen, sub_zero]
  exact sub_eq_zero.1 (dotProduct_self_eq_zero.1 hself)

theorem perm (h : IsShortest told x) (hperm : told.Perm told') : IsShortest told' x where
  least w := by
    rw [← (hperm.map _).sum_eq]
    exact h.least w
  shortest w hw := h.shortest w fun e he => hw e (hperm.mem_iff.1 he)

end IsShortest

/-! ## Matrices without singular columns -/

section Regular

variable {m : Dense.Matrix ℝ} {B : Matrix (Fin n) (Fin n) ℝ} {pivotThreshold : ℝ}
  (hrows : m.rows = n) (hcols : m.cols = n) (hentry : ∀ i j : Fin n, m.entry i j = B i j)
  (hpivot : 0 < pivotThreshold)
  (hregular : (Factors.ofMatrix m pivotThreshold).singularCount = 0)

include hrows hcols hentry hpivot hregular

theorem mulVec_solve (b : Array ℝ) :
    B.mulVec (vec n ((Factors.ofMatrix m pivotThreshold).solve b)) = vec n b := by
  funext i
  have hrow := Factors.solve_eq (hcols.trans hrows.symm) hpivot hregular b
    (show i.val < m.rows by rw [hrows]; exact i.isLt)
  rw [hrows, Finset.sum_range] at hrow
  simp only [hentry] at hrow
  exact hrow

theorem eq_zero_of_mulVec {w : Fin n → ℝ} (hw : B.mulVec w = 0) : w = 0 := by
  refine Factors.productMap_injective hrows hcols hpivot hregular ?_
  rw [map_zero, ← hw]
  funext i
  show ∑ j : Fin n, m.entry i j * w j = ∑ j : Fin n, B i j * w j
  simp only [hentry]

end Regular

/-! ## What each method finds -/

section Methods

variable {told : List (Equation ℝ)} {pivotThreshold : ℝ}

/-- The rows of equations as a matrix. -/
def coefficients (n : Nat) (told : List (Equation ℝ)) : Matrix (Fin told.length) (Fin n) ℝ :=
  fun i => vec n told[i].row

/-- The deviations of equations. -/
def offsets (told : List (Equation ℝ)) : Fin told.length → ℝ := fun i => told[i].deviation

theorem rows_rowsOf : (rowsOf n told).rows = told.length := by simp [rowsOf, Dense.Matrix.ofRows]

theorem entry_rowsOf (i : Fin told.length) (j : Fin n) :
    (rowsOf n told).entry i j = coefficients n told i j := by
  rw [rowsOf, Dense.Matrix.ofRows, Dense.Matrix.entry_ofFn _ (by simp) j.isLt]
  simp [Array.getD, coefficients, vec]

theorem vec_targetOf : vec told.length (targetOf told) = -offsets told := by
  funext i
  rw [vec, targetOf, getD_of_lt (by simp)]
  simp [offsets]

theorem entry_gram (j k : Fin n) : (rowsOf n told).gram.entry j k =
    ((coefficients n told).transpose * coefficients n told) j k := by
  rw [Dense.Matrix.entry_gram j.isLt k.isLt, rows_rowsOf, Finset.sum_range]
  exact Finset.sum_congr rfl fun i _ => by rw [entry_rowsOf, entry_rowsOf]; rfl

theorem entry_outerGram (i k : Fin told.length) : (rowsOf n told).outerGram.entry i k =
    (coefficients n told * (coefficients n told).transpose) i k := by
  have hlt : ∀ i : Fin told.length, i < (rowsOf n told).rows := fun i => by
    rw [rows_rowsOf]
    exact i.isLt
  rw [Dense.Matrix.entry_outerGram (hlt i) (hlt k)]
  show ∑ j ∈ Finset.range n, _ = _
  rw [Finset.sum_range]
  exact Finset.sum_congr rfl fun j _ => by rw [entry_rowsOf, entry_rowsOf]; rfl

theorem vec_transposeMulVec (v : Array ℝ) : vec n ((rowsOf n told).transposeMulVec v) =
    (coefficients n told).transpose.mulVec (vec told.length v) := by
  funext j
  rw [vec, Dense.Matrix.getD_transposeMulVec v j.isLt, rows_rowsOf, Finset.sum_range]
  exact Finset.sum_congr rfl fun i _ => by rw [entry_rowsOf, mul_comm]; rfl

/-- The least squares are left where no column sees the residuals. -/
theorem least_of_normal {x : Fin n → ℝ} (h : (coefficients n told).transpose.mulVec
    ((coefficients n told).mulVec x + offsets told) = 0) (w : Fin n → ℝ) :
    (told.map fun e => e.residual x * (vec n e.row ⬝ᵥ w)).sum = 0 := by
  rw [← Fin.sum_univ_fun_getElem]
  show ((coefficients n told).mulVec x + offsets told) ⬝ᵥ (coefficients n told).mulVec w = 0
  rw [Matrix.dotProduct_mulVec, ← Matrix.mulVec_transpose, h, zero_dotProduct]

/-- What no row sees is taken to zero by the matrix of the rows. -/
theorem mulVec_eq_zero {w : Fin n → ℝ} (h : ∀ e ∈ told, vec n e.row ⬝ᵥ w = 0) :
    (coefficients n told).mulVec w = 0 :=
  funext fun i => h _ (List.getElem_mem i.isLt)

/-- A system with as many rows as unknowns is solved as it is. -/
theorem isShortest_direct (hsquare : told.length = n) (hpivot : 0 < pivotThreshold)
    (hregular : (Factors.ofMatrix (rowsOf n told) pivotThreshold).singularCount = 0) :
    IsShortest told
      (vec n ((Factors.ofMatrix (rowsOf n told) pivotThreshold).solve (targetOf told))) := by
  subst hsquare
  have hsolved := mulVec_solve rows_rowsOf rfl entry_rowsOf hpivot hregular (targetOf told)
  constructor
  · apply least_of_normal
    rw [hsolved, vec_targetOf, neg_add_cancel, Matrix.mulVec_zero]
  · intro w hw
    have hzero := eq_zero_of_mulVec rows_rowsOf rfl entry_rowsOf hpivot hregular (mulVec_eq_zero hw)
    rw [hzero, dotProduct_zero]

/-- With more rows than unknowns the normal equations are solved. -/
theorem isShortest_normal (hpivot : 0 < pivotThreshold)
    (hregular : (Factors.ofMatrix (rowsOf n told).gram pivotThreshold).singularCount = 0) :
    IsShortest told (vec n ((Factors.ofMatrix (rowsOf n told).gram pivotThreshold).solve
      ((rowsOf n told).transposeMulVec (targetOf told)))) := by
  have hsolved := mulVec_solve (n := n) rfl rfl entry_gram hpivot hregular
    ((rowsOf n told).transposeMulVec (targetOf told))
  have htarget : vec n ((rowsOf n told).transposeMulVec (targetOf told)) =
      (coefficients n told).transpose.mulVec (-offsets told) := by
    rw [vec_transposeMulVec, vec_targetOf]
  constructor
  · apply least_of_normal
    rw [Matrix.mulVec_add, Matrix.mulVec_mulVec, hsolved, htarget, Matrix.mulVec_neg,
      neg_add_cancel]
  · intro w hw
    have hproduct : ((coefficients n told).transpose * coefficients n told).mulVec w = 0 := by
      rw [← Matrix.mulVec_mulVec, mulVec_eq_zero hw, Matrix.mulVec_zero]
    rw [eq_zero_of_mulVec (n := n) rfl rfl entry_gram hpivot hregular hproduct, dotProduct_zero]

/-- With fewer rows than unknowns the step is put together from the rows. -/
theorem isShortest_wide (hpivot : 0 < pivotThreshold)
    (hregular : (Factors.ofMatrix (rowsOf n told).outerGram pivotThreshold).singularCount = 0) :
    IsShortest told (vec n ((rowsOf n told).transposeMulVec
      ((Factors.ofMatrix (rowsOf n told).outerGram pivotThreshold).solve (targetOf told)))) := by
  have hrows : (rowsOf n told).outerGram.rows = told.length := rows_rowsOf (n := n)
  have hcols : (rowsOf n told).outerGram.cols = told.length := rows_rowsOf (n := n)
  have hsolved := mulVec_solve hrows hcols entry_outerGram hpivot hregular (targetOf told)
  rw [vec_transposeMulVec]
  constructor
  · apply least_of_normal
    rw [Matrix.mulVec_mulVec, hsolved, vec_targetOf, neg_add_cancel, Matrix.mulVec_zero]
  · intro w hw
    rw [Matrix.mulVec_transpose, ← Matrix.dotProduct_mulVec, mulVec_eq_zero hw, dotProduct_zero]

/-- By whatever method a system is solved, without singular pivots the step is the
shortest one. -/
theorem isShortest_of_solveByShape (hpivot : 0 < pivotThreshold) {step : Array ℝ}
    {method : Method} (h : solveByShape (rowsOf n told) (targetOf told) pivotThreshold =
      .ok (step, method, 0)) : IsShortest told (vec n step) := by
  have htarget : (targetOf told).size = (rowsOf n told).rows := by simp [targetOf, rows_rowsOf]
  rcases Nat.lt_trichotomy n (rowsOf n told).rows with htall | hsquare | hwide
  · rw [solveByShape_tall htarget pivotThreshold htall] at h
    simp only [Except.ok.injEq, Prod.mk.injEq] at h
    obtain ⟨rfl, -, hregular⟩ := h
    exact isShortest_normal hpivot hregular
  · rw [solveByShape_direct htarget pivotThreshold hsquare.symm] at h
    simp only [Except.ok.injEq, Prod.mk.injEq] at h
    obtain ⟨rfl, -, hregular⟩ := h
    exact isShortest_direct (rows_rowsOf.symm.trans hsquare.symm) hpivot hregular
  · rw [solveByShape_wide htarget pivotThreshold hwide] at h
    simp only [Except.ok.injEq, Prod.mk.injEq] at h
    obtain ⟨rfl, -, hregular⟩ := h
    exact isShortest_wide hpivot hregular

/-! ## Corrections -/

/-- What a correction tells of itself hangs on its shape only. -/
theorem shape_of_correctionOf? {k : Correction ℝ}
    (h : correctionOf? n told pivotThreshold = .ok k) :
    k.method = (if n = 0 ∨ told.length = 0 then .empty else .ofShape told.length n) ∧
      k.rowsUsed = (if n = 0 then 0 else told.length) ∧ k.step.size = n := by
  unfold correctionOf? at h
  split at h
  case isTrue hempty =>
    rw [List.isEmpty_iff_length_eq_zero] at hempty
    cases h
    refine ⟨(if_pos hempty).symm, ?_, by simp [Correction.none]⟩
    rcases hempty with hn | hn <;> simp [Correction.none, hn]
  case isFalse hsome =>
    rw [List.isEmpty_iff_length_eq_zero] at hsome
    have htarget : (targetOf told).size = (rowsOf n told).rows := by simp [targetOf, rows_rowsOf]
    obtain ⟨step, singular, hs, hsize⟩ := solveByShape_total htarget pivotThreshold
    rw [hs, rows_rowsOf] at h
    cases h
    rw [not_or] at hsome
    exact ⟨(if_neg (not_or.2 hsome)).symm, (if_neg hsome.1).symm,
      (size_onlyFinite step).trans hsize⟩

theorem isShortest_nothing (h : n = 0 ∨ told.isEmpty = true) : IsShortest told (0 : Fin n → ℝ) := by
  constructor
  · intro w
    rcases h with rfl | h
    · simp
    · simp [List.isEmpty_iff.1 h]
  · intro w _
    exact zero_dotProduct w

/-- A correction without singular pivots takes the shortest step, by the method for its
shape. -/
theorem isShortest_of_correctionOf? (hpivot : 0 < pivotThreshold) {k : Correction ℝ}
    (h : correctionOf? n told pivotThreshold = .ok k) (hregular : k.singularPivots = 0) :
    IsShortest told (vec n k.step) := by
  unfold correctionOf? at h
  split at h
  case isTrue hempty =>
    cases h
    have hzero : vec n (Correction.none n : Correction ℝ).step = 0 := by
      funext j
      simp [vec, Correction.none, Array.getD]
    rw [hzero]
    exact isShortest_nothing hempty
  case isFalse =>
    obtain ⟨⟨step, method, singular⟩, hs, h⟩ := bind_eq_ok h
    cases h
    have hfinite : allFinite step = true := Array.all_eq_true'.2 fun _ _ => rfl
    cases hregular
    rw [Correction.onlyFinite, if_pos hfinite]
    exact isShortest_of_solveByShape hpivot hs

end Methods

end Joinery.Newton
