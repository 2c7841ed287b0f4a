import Mathlib
import Joinery.Proofs.Newton.Optimal
/-!
# Balancing leaves determined steps alone

Balancing multiplies an equation by a positive number, or leaves it. It cannot make a row
tell something that told nothing before, nor the other way round: the two limits are apart,
and a row that is divided by its length is well above both. With no more rows than unknowns,
and no singular pivot either way, both steps leave nothing of any row and are the shortest
to do so, and there is one such step.
-/

namespace Joinery.Newton

open Joinery.Dense

/-! ## One equation -/

namespace Equation

variable {n : Nat} {e : Equation ℝ}

/-- A row that is all but zero is not balanced. -/
theorem balanced_eq_self (h : ¬1e-12 < norm e.row) : e.balanced = e := by
  have hdivisor : divisor? e.row = none := if_neg h
  unfold balanced
  rw [hdivisor]

/-- An equation tells something after it is balanced if it did so before. -/
theorem tells_balanced (e : Equation ℝ) : e.balanced.tells = e.tells := by
  by_cases hlong : 1e-12 < norm e.row
  · have hunit := (balanced_row rfl hlong).2.2
    have hnorm : norm e.balanced.row = 1 := by
      rw [norm_eq_vec (size_row_balanced e), hunit, Real.sqrt_one]
    have hlimits : (1e-14 : ℝ) < 1e-12 := by norm_num
    rw [tells, tells, hnorm, decide_eq_true (hlimits.trans hlong)]
    exact decide_eq_true (by norm_num)
  · rw [balanced_eq_self hlong]

/-- Balancing multiplies what is left of an equation by a positive number, and what a row
sees as well. -/
theorem exists_factor (he : e.row.size = n) : ∃ q : ℝ, 0 < q ∧
    (∀ w : Fin n → ℝ, vec n e.balanced.row ⬝ᵥ w = q * (vec n e.row ⬝ᵥ w)) ∧
      ∀ x : Fin n → ℝ, e.balanced.residual x = q * e.residual x := by
  by_cases hlong : 1e-12 < norm e.row
  · obtain ⟨hdeviation, hrow, -⟩ := balanced_row he hlong
    have hseen : ∀ w : Fin n → ℝ,
        vec n e.balanced.row ⬝ᵥ w = 1 / norm e.row * (vec n e.row ⬝ᵥ w) := by
      intro w
      rw [hrow, smul_dotProduct, smul_eq_mul]
    refine ⟨1 / norm e.row, one_div_pos.2 (lt_trans (by norm_num) hlong), hseen, fun x => ?_⟩
    rw [residual, residual, hseen, hdeviation]
    ring
  · rw [balanced_eq_self hlong]
    exact ⟨1, one_pos, fun w => (one_mul _).symm, fun x => (one_mul _).symm⟩

end Equation

/-! ## What a correction is told -/

section Told

variable {slopes : Dense.Matrix ℝ} {deviations : Array ℝ}

/-- The same rows tell something before and after balancing. -/
theorem tellingRows_balanced (slopes : Dense.Matrix ℝ) (deviations : Array ℝ) :
    tellingRows (balanced slopes deviations).1 = tellingRows slopes := by
  refine congrArg List.toArray (List.filter_congr fun i hi => ?_)
  have hlt : i < slopes.rows := List.mem_range.1 hi
  have hrow : (balanced slopes deviations).1.row i =
      (Equation.balanced ⟨slopes.row i, deviations.getD i 0⟩).row := row_balanced hlt deviations
  exact (congrArg (fun row => decide (1e-14 < Dense.norm row)) hrow).trans (Equation.tells_balanced _)

/-- What a correction is told of a balanced system are the balanced equations that it is
told without. -/
theorem filter_balanced (h : deviations.size = slopes.rows) :
    (equations (balanced slopes deviations).1 (balanced slopes deviations).2).filter
        Equation.tells =
      ((equations slopes deviations).filter Equation.tells).map Equation.balanced := by
  rw [equations_balanced h, List.filter_map]
  exact congrArg (List.map Equation.balanced)
    (List.filter_congr fun e _ => Equation.tells_balanced e)

theorem size_row_of_mem {e : Equation ℝ}
    (he : e ∈ (equations slopes deviations).filter Equation.tells) :
    e.row.size = slopes.cols := by
  rw [filter_equations] at he
  obtain ⟨i, hi, rfl⟩ := List.mem_map.1 he
  exact slopes.size_row (tellingRows_lt (List.mem_toArray.2 hi))

end Told

/-- The shortest step of balanced equations is the shortest without balancing, if it leaves
nothing of them. -/
theorem IsShortest.of_balanced {n : Nat} {told : List (Equation ℝ)} {x : Fin n → ℝ}
    (h : IsShortest (told.map Equation.balanced) x) (hsize : ∀ e ∈ told, e.row.size = n)
    (hzero : ∀ e ∈ told, e.balanced.residual x = 0) : IsShortest told x where
  least w := by
    refine List.sum_eq_zero fun y hy => ?_
    obtain ⟨e, he, rfl⟩ := List.mem_map.1 hy
    obtain ⟨q, hq, -, hresidual⟩ := Equation.exists_factor (hsize e he)
    have hleft := hzero e he
    rw [hresidual, mul_eq_zero, or_iff_right hq.ne'] at hleft
    rw [hleft, zero_mul]
  shortest w hw := by
    refine h.shortest w fun e' he' => ?_
    obtain ⟨e, he, rfl⟩ := List.mem_map.1 he'
    obtain ⟨q, -, hseen, -⟩ := Equation.exists_factor (hsize e he)
    rw [hseen, hw e he, mul_zero]

/-! ## Corrections -/

section Corrections

variable {slopes : Dense.Matrix ℝ} {deviations : Array ℝ} {pivotThreshold : ℝ} {k : Correction ℝ}

/-- With no more rows than unknowns and no singular pivots, a correction leaves nothing of
what it is told. -/
theorem residual_eq_zero (hrows : slopes.rows = deviations.size) (hpivot : 0 < pivotThreshold)
    (hk : correction? slopes deviations pivotThreshold = .ok k) (hregular : k.singularPivots = 0)
    (hle : (tellingRows slopes).size ≤ slopes.cols) {e : Equation ℝ}
    (he : e ∈ (equations slopes deviations).filter Equation.tells) :
    e.residual (vec slopes.cols k.step) = 0 := by
  rw [filter_equations] at he
  obtain ⟨i, hi, rfl⟩ := List.mem_map.1 he
  rw [residual_row (tellingRows_lt (List.mem_toArray.2 hi))]
  exact remaining_eq_zero hrows hk hpivot hregular (card_telling.trans_le hle) (mem_telling.2 hi)

/-- Balanced or not, a system has the same rows take part by the same method, and where it
determines the step also the same step. -/
theorem correction_balanced (slopes : Dense.Matrix ℝ) (deviations : Array ℝ) (pivotThreshold : ℝ)
    (hrows : slopes.rows = deviations.size) (hpivot : 0 < pivotThreshold) :
    tellingRows (balanced slopes deviations).1 = tellingRows slopes ∧
      ∃ k k', correction? slopes deviations pivotThreshold = .ok k ∧
        correction? (balanced slopes deviations).1 (balanced slopes deviations).2
          pivotThreshold = .ok k' ∧
        k'.rowsUsed = k.rowsUsed ∧ k'.method = k.method ∧
        ((tellingRows slopes).size ≤ slopes.cols → k.singularPivots = 0 →
          k'.singularPivots = 0 → k'.step = k.step) := by
  have hrows' : (balanced slopes deviations).1.rows = (balanced slopes deviations).2.size := by
    simpa [balanced] using hrows
  have htelling := tellingRows_balanced slopes deviations
  have htold := filter_balanced hrows.symm
  obtain ⟨k, hk, hsize⟩ := correction?_total hrows pivotThreshold
  obtain ⟨k', hk', hsize'⟩ := correction?_total hrows' pivotThreshold
  have hof := correction?_eq hrows pivotThreshold ▸ hk
  have hof' := correction?_eq hrows' pivotThreshold ▸ hk'
  rw [htold] at hof'
  obtain ⟨hmethod, hused, -⟩ := shape_of_correctionOf? hof
  obtain ⟨hmethod', hused', -⟩ := shape_of_correctionOf? hof'
  rw [List.length_map] at hmethod' hused'
  refine ⟨htelling, k, k', hk, hk', hused'.trans hused.symm, hmethod'.trans hmethod.symm, ?_⟩
  intro hle hregular hregular'
  have hshortest := isShortest_of_correctionOf? hpivot hof hregular
  have hshortest' := isShortest_of_correctionOf? hpivot hof' hregular'
  have hzero : ∀ e ∈ (equations slopes deviations).filter Equation.tells,
      e.balanced.residual (vec slopes.cols k'.step) = 0 := by
    intro e he
    have hmem := List.mem_map_of_mem (f := Equation.balanced) he
    rw [← htold] at hmem
    exact residual_eq_zero hrows' hpivot hk' hregular' (htelling.symm ▸ hle) hmem
  exact vec_injective hsize' hsize
    ((hshortest'.of_balanced (fun e => size_row_of_mem) hzero).unique hshortest)

end Corrections

/-- One row of length ten, in two unknowns. -/
noncomputable def steep : Dense.Matrix ℝ := .ofFn 1 2 fun _ j => if j = 0 then 6 else 8

/-- The step is the same whether the row is divided by its length or not. -/
theorem correction_balanced_steep : ∃ k k', correction? steep #[50] (1 / 1000) = .ok k ∧
    correction? (balanced steep #[50]).1 (balanced steep #[50]).2 (1 / 1000) = .ok k' ∧
      k.singularPivots = 0 ∧ k'.singularPivots = 0 ∧ k'.step = k.step := by
  obtain ⟨htelling, k, k', hk, hk', -, -, hstep⟩ :=
    correction_balanced steep #[50] (1 / 1000) rfl (by norm_num)
  have hself : vec 2 (steep.row 0) ⬝ᵥ vec 2 (steep.row 0) = 100 := by
    have hentry : ∀ j < 2, (steep.row 0).getD j 0 = if j = 0 then 6 else 8 := fun j hj =>
      (steep.getD_row (by decide) hj).trans (Dense.Matrix.entry_ofFn _ (by decide) hj)
    rw [dotProduct, Fin.sum_univ_two]
    show (steep.row 0).getD 0 0 * (steep.row 0).getD 0 0 +
      (steep.row 0).getD 1 0 * (steep.row 0).getD 1 0 = 100
    rw [hentry 0 (by decide), hentry 1 (by decide)]
    norm_num
  have hnorm : norm (steep.row 0) = 10 := by
    rw [norm_eq_vec (n := 2) (steep.size_row (by decide)), hself, Real.sqrt_eq_iff_eq_sq] <;> norm_num
  have htold : (equations steep #[50]).filter Equation.tells = [⟨steep.row 0, 50⟩] := by
    refine List.filter_eq_self.2 fun e he => ?_
    rw [List.mem_singleton.1 he, Equation.tells, hnorm]
    exact decide_eq_true (by norm_num)
  have hregular : k.singularPivots = 0 := by
    have hof := hk
    rw [correction?_eq rfl, htold] at hof
    refine singularPivots_one (n := 2) (by decide) ?_ hof
    rw [hself]
    norm_num
  have hregular' : k'.singularPivots = 0 := by
    have hof := hk'
    have hunit := (balanced_row (n := 2) (e := ⟨steep.row 0, 50⟩) (steep.size_row (by decide))
      (by rw [hnorm]; norm_num)).2.2
    rw [correction?_eq rfl, filter_balanced rfl, htold] at hof
    refine singularPivots_one (n := 2) (by decide) ?_ hof
    rw [hunit]
    norm_num
  have hone : (tellingRows steep).size ≤ steep.cols := by
    rw [← card_telling]
    exact (Finset.card_filter_le _ _).trans (by decide)
  exact ⟨k, k', hk, hk', hregular, hregular', hstep hone hregular hregular'⟩

end Joinery.Newton
