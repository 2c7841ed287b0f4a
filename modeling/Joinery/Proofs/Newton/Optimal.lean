import Mathlib
import Joinery.Proofs.Dense.Solution
import Joinery.Proofs.Newton.Separation
/-!
# Corrections are the best steps for their shape

What a step is to do is said row by row, of the rows that tell something. Where they are as
many as the unknowns, a correction takes the only step that leaves nothing of their
deviations; where they are more, one that leaves the least squares; where they are fewer, the
shortest that leaves nothing. All this needs usable pivots, but with no more rows than
unknowns each singular pivot costs one row at most.
-/

namespace Joinery.Newton

open Joinery.Dense

/-! ## Least squares and least lengths -/

namespace IsShortest

variable {n : Nat} {told : List (Equation ℝ)} {x : Fin n → ℝ} (h : IsShortest told x)
include h

/-- No other step leaves less. -/
theorem sum_sq_le (y : Fin n → ℝ) :
    (told.map fun e => e.residual x ^ 2).sum ≤ (told.map fun e => e.residual y ^ 2).sum := by
  have hsquare : ∀ e : Equation ℝ, e.residual y ^ 2 = e.residual x ^ 2 +
      2 * (e.residual x * (vec n e.row ⬝ᵥ (y - x))) + (vec n e.row ⬝ᵥ (y - x)) ^ 2 := by
    intro e
    rw [Equation.residual, Equation.residual, dotProduct_sub]
    ring
  have hnonneg : 0 ≤ (told.map fun e => (vec n e.row ⬝ᵥ (y - x)) ^ 2).sum := by
    refine List.sum_nonneg fun z hz => ?_
    obtain ⟨e, -, rfl⟩ := List.mem_map.1 hz
    exact sq_nonneg _
  simp only [hsquare]
  rw [List.sum_map_add, List.sum_map_add, List.sum_map_mul_left, h.least (y - x), mul_zero,
    add_zero]
  exact le_add_of_nonneg_right hnonneg

/-- No step that does the same to every row is shorter. -/
theorem dotProduct_le {y : Fin n → ℝ} (hy : ∀ e ∈ told, e.residual y = e.residual x) :
    x ⬝ᵥ x ≤ y ⬝ᵥ y := by
  have hunseen : x ⬝ᵥ (y - x) = 0 := by
    refine h.shortest _ fun e he => ?_
    have hsame := hy e he
    rw [Equation.residual, Equation.residual, add_left_inj] at hsame
    rw [dotProduct_sub, hsame, sub_self]
  calc x ⬝ᵥ x ≤ x ⬝ᵥ x + (y - x) ⬝ᵥ (y - x) :=
        le_add_of_nonneg_right (Finset.sum_nonneg fun j _ => mul_self_nonneg _)
    _ = (x + (y - x)) ⬝ᵥ (x + (y - x)) := by
        rw [add_dotProduct, dotProduct_add, dotProduct_add, hunseen, dotProduct_comm (y - x) x,
          hunseen, add_zero, zero_add]
    _ = y ⬝ᵥ y := by rw [add_sub_cancel]

end IsShortest

/-! ## Rows that hold -/

section Held

variable {m : Dense.Matrix ℝ} {target step : Array ℝ} {method : Method} {singular : Nat}
  {pivotThreshold : ℝ}

/-- With no more rows than unknowns, at most as many rows are missed as there are singular
pivots. -/
theorem rows_le_met (htarget : target.size = m.rows) (hle : m.rows ≤ m.cols)
    (hpivot : 0 < pivotThreshold)
    (hs : solveByShape m target pivotThreshold = .ok (step, method, singular)) :
    m.rows ≤ singular + ((Finset.range m.rows).filter fun i =>
      ∑ j ∈ Finset.range m.cols, m.entry i j * step.getD j 0 = target.getD i 0).card := by
  rcases Nat.lt_or_eq_of_le hle with hwide | hsquare
  · rw [solveByShape_wide htarget pivotThreshold hwide] at hs
    simp only [Except.ok.injEq, Prod.mk.injEq] at hs
    obtain ⟨rfl, -, rfl⟩ := hs
    have hmet := Factors.rows_le_met (m := m.outerGram) rfl hpivot target
    have hproduct : ∀ (v : Array ℝ) (i : Nat), i < m.rows →
        ∑ j ∈ Finset.range m.rows, m.outerGram.entry i j * v.getD j 0 =
          ∑ j ∈ Finset.range m.cols, m.entry i j * (m.transposeMulVec v).getD j 0 :=
      fun v i hi => Dense.Matrix.sum_outerGram v hi
    refine hmet.trans_eq (congrArg (_ + Finset.card ·) (Finset.filter_congr fun i hi => ?_))
    rw [← hproduct _ i (Finset.mem_range.1 hi)]
    rfl
  · rw [solveByShape_direct htarget pivotThreshold hsquare] at hs
    simp only [Except.ok.injEq, Prod.mk.injEq] at hs
    obtain ⟨rfl, -, rfl⟩ := hs
    rw [← hsquare]
    exact Factors.rows_le_met hsquare.symm hpivot target

end Held

/-! ## Rows that tell something -/

section Telling

/-- The rows that tell something: those that are longer than all but zero. -/
noncomputable def telling (slopes : Dense.Matrix ℝ) : Finset Nat :=
  (Finset.range slopes.rows).filter fun i =>
    1e-14 < Real.sqrt (∑ j ∈ Finset.range slopes.cols, slopes.entry i j ^ 2)

/-- What a step would leave of a deviation if its row held everywhere. -/
noncomputable def remaining (slopes : Dense.Matrix ℝ) (deviations v : Array ℝ) (i : Nat) : ℝ :=
  ∑ j ∈ Finset.range slopes.cols, slopes.entry i j * v.getD j 0 + deviations.getD i 0

variable {slopes : Dense.Matrix ℝ} {deviations v : Array ℝ} {i : Nat}

theorem norm_row (hi : i < slopes.rows) :
    norm (slopes.row i) = Real.sqrt (∑ j ∈ Finset.range slopes.cols, slopes.entry i j ^ 2) := by
  rw [norm_eq_vec (slopes.size_row hi), Finset.sum_range]
  refine congrArg Real.sqrt (Finset.sum_congr rfl fun j _ => ?_)
  rw [sq, vec, slopes.getD_row hi j.isLt]

/-- The rows that are selected are those that tell something. -/
theorem mem_telling : i ∈ telling slopes ↔ i ∈ (tellingRows slopes).toList := by
  unfold telling tellingRows
  rw [Finset.mem_filter, List.mem_filter, Finset.mem_range, List.mem_range, decide_eq_true_iff]
  refine and_congr_right fun hi => ?_
  rw [norm_row hi]

theorem nodup_tellingRows : (tellingRows slopes).toList.Nodup := List.nodup_range.filter _

theorem telling_eq : telling slopes = (tellingRows slopes).toList.toFinset := by
  ext i
  rw [mem_telling, List.mem_toFinset]

theorem card_telling : (telling slopes).card = (tellingRows slopes).size := by
  rw [telling_eq, List.toFinset_card_of_nodup nodup_tellingRows, Array.length_toList]

theorem residual_row (hi : i < slopes.rows) :
    (⟨slopes.row i, deviations.getD i 0⟩ : Equation ℝ).residual (vec slopes.cols v) =
      remaining slopes deviations v i := by
  rw [remaining, Finset.sum_range]
  refine congrArg (· + _) (Finset.sum_congr rfl fun j _ => ?_)
  rw [vec, vec, slopes.getD_row hi j.isLt]

/-- By how much a row that is selected is missed is what is left of its deviation. -/
theorem sub_selected {r : Nat} (hr : r < (tellingRows slopes).size) :
    ∑ j ∈ Finset.range slopes.cols,
        (slopes.selectRows (tellingRows slopes)).entry r j * v.getD j 0 -
          ((tellingRows slopes).map fun i => -deviations.getD i 0).getD r 0 =
      remaining slopes deviations v ((tellingRows slopes).getD r 0) := by
  have hrow : ∀ j ∈ Finset.range slopes.cols,
      (slopes.selectRows (tellingRows slopes)).entry r j * v.getD j 0 =
        slopes.entry ((tellingRows slopes).getD r 0) j * v.getD j 0 := by
    intro j hj
    rw [Dense.Matrix.entry_selectRows slopes hr (Finset.mem_range.1 hj), getD_of_lt hr]
  have htarget : ((tellingRows slopes).map fun i => -deviations.getD i 0).getD r 0 =
      -deviations.getD ((tellingRows slopes).getD r 0) 0 := by
    simp [Array.getD, hr]
  rw [Finset.sum_congr rfl hrow, htarget, remaining, sub_neg_eq_add]

/-- A row that is selected holds of a step that leaves nothing of its deviation. -/
theorem selected_iff {r : Nat} (hr : r < (tellingRows slopes).size) :
    ∑ j ∈ Finset.range slopes.cols,
        (slopes.selectRows (tellingRows slopes)).entry r j * v.getD j 0 =
          ((tellingRows slopes).map fun i => -deviations.getD i 0).getD r 0 ↔
      remaining slopes deviations v ((tellingRows slopes).getD r 0) = 0 := by
  rw [← sub_selected hr, sub_eq_zero]

theorem getD_mem_telling {r : Nat} (hr : r < (tellingRows slopes).size) :
    (tellingRows slopes).getD r 0 ∈ telling slopes := by
  rw [mem_telling, getD_of_lt hr]
  exact Array.getElem_mem_toList hr

/-- What holds of all rows that tell something holds of those that are selected. -/
theorem forall_telling_iff {P : Nat → Prop} : (∀ i ∈ telling slopes, P i) ↔
    ∀ r < (tellingRows slopes).size, P ((tellingRows slopes).getD r 0) := by
  constructor
  · exact fun h r hr => h _ (getD_mem_telling hr)
  · intro h i hi
    obtain ⟨r, hr, rfl⟩ := List.getElem_of_mem (mem_telling.1 hi)
    have hrow := h r hr
    rwa [getD_of_lt hr] at hrow

/-- Sums over what a correction is told run over the rows that tell something. -/
theorem sum_told (f : Equation ℝ → ℝ) :
    (((equations slopes deviations).filter Equation.tells).map f).sum =
      ∑ i ∈ telling slopes, f ⟨slopes.row i, deviations.getD i 0⟩ := by
  rw [filter_equations, List.map_map, telling_eq, List.sum_toFinset _ nodup_tellingRows]
  rfl

end Telling

/-! ## The best step -/

/-- What the step of a correction is for the rows that tell something. -/
structure Correction.Best (slopes : Dense.Matrix ℝ) (deviations : Array ℝ) (k : Correction ℝ) :
    Prop where
  size : k.step.size = slopes.cols
  /-- With as many rows as unknowns it is the only step that leaves nothing. -/
  only : k.singularPivots = 0 → (telling slopes).card = slopes.cols →
    ∀ v : Array ℝ, v.size = slopes.cols →
      ((∀ i ∈ telling slopes, remaining slopes deviations v i = 0) ↔ v = k.step)
  /-- With more rows it leaves the least squares. -/
  least : k.singularPivots = 0 → slopes.cols < (telling slopes).card →
    ∀ v : Array ℝ, v.size = slopes.cols →
      ∑ i ∈ telling slopes, remaining slopes deviations k.step i ^ 2 ≤
        ∑ i ∈ telling slopes, remaining slopes deviations v i ^ 2
  /-- With fewer rows it is the shortest step that leaves nothing. -/
  shortest : k.singularPivots = 0 → (telling slopes).card < slopes.cols →
    (∀ i ∈ telling slopes, remaining slopes deviations k.step i = 0) ∧
      ∀ v : Array ℝ, v.size = slopes.cols →
        (∀ i ∈ telling slopes, remaining slopes deviations v i = 0) → norm k.step ≤ norm v
  /-- A singular pivot costs one row at most. -/
  met : (telling slopes).card ≤ slopes.cols → (telling slopes).card ≤ k.singularPivots +
    ((telling slopes).filter fun i => remaining slopes deviations k.step i = 0).card

section Best

variable {slopes : Dense.Matrix ℝ} {deviations : Array ℝ} {pivotThreshold : ℝ} {k : Correction ℝ}
  (hrows : slopes.rows = deviations.size)
  (hk : correction? slopes deviations pivotThreshold = .ok k)
include hrows hk

/-- The step of a correction that is told something solves the rows that are selected. -/
theorem solveByShape_of_correction? (hcols : slopes.cols ≠ 0)
    (hsome : (tellingRows slopes).size ≠ 0) :
    solveByShape (slopes.selectRows (tellingRows slopes))
      ((tellingRows slopes).map fun i => -deviations.getD i 0) pivotThreshold =
        .ok (k.step, k.method, k.singularPivots) := by
  unfold correction? at hk
  rw [if_neg (not_not_intro hrows)] at hk
  dsimp only at hk
  rw [if_neg (not_or.2 ⟨hcols, mt Array.isEmpty_iff_size_eq_zero.1 hsome⟩),
    selectRows?_tellingRows, ok_bind] at hk
  obtain ⟨⟨step, method, singular⟩, hs, hk⟩ := bind_eq_ok hk
  cases hk
  have hfinite : allFinite step = true := Array.all_eq_true'.2 fun _ _ => rfl
  rw [hs, Correction.onlyFinite, if_pos hfinite]

variable (hpivot : 0 < pivotThreshold)
include hpivot

/-- With no more rows than unknowns, a singular pivot costs one row at most. -/
theorem telling_le_met (hle : (telling slopes).card ≤ slopes.cols) :
    (telling slopes).card ≤ k.singularPivots +
      ((telling slopes).filter fun i => remaining slopes deviations k.step i = 0).card := by
  rw [card_telling] at hle ⊢
  by_cases hsome : (tellingRows slopes).size = 0
  · rw [hsome]
    exact Nat.zero_le _
  have hs := solveByShape_of_correction? hrows hk (by omega) hsome
  have hmet := rows_le_met (by simp) hle hpivot hs
  refine hmet.trans (Nat.add_le_add_left ?_ _)
  refine Finset.card_le_card_of_injOn ((tellingRows slopes).getD · 0) ?_ ?_
  · intro r hr
    obtain ⟨hlt, hrow⟩ := Finset.mem_filter.1 hr
    have hlt' : r < (tellingRows slopes).size := Finset.mem_range.1 hlt
    exact Finset.mem_coe.2
      (Finset.mem_filter.2 ⟨getD_mem_telling hlt', (selected_iff hlt').1 hrow⟩)
  · intro r hr r' hr' heq
    exact getD_inj nodup_tellingRows (Finset.mem_range.1 (Finset.mem_filter.1 hr).1)
      (Finset.mem_range.1 (Finset.mem_filter.1 hr').1) heq

variable (hregular : k.singularPivots = 0)
include hregular

/-- So without singular pivots nothing is left of any row. -/
theorem remaining_eq_zero (hle : (telling slopes).card ≤ slopes.cols) {i : Nat}
    (hi : i ∈ telling slopes) : remaining slopes deviations k.step i = 0 := by
  have hmet := telling_le_met hrows hk hpivot hle
  rw [hregular, zero_add] at hmet
  have hall := Finset.eq_of_subset_of_card_le (Finset.filter_subset _ _) hmet
  rw [← hall] at hi
  exact (Finset.mem_filter.1 hi).2

/-- With as many rows as unknowns, only the step of the correction leaves nothing. -/
theorem remaining_eq_zero_iff (hsquare : (telling slopes).card = slopes.cols)
    (hcols : slopes.cols ≠ 0) {v : Array ℝ} (hv : v.size = slopes.cols) :
    (∀ i ∈ telling slopes, remaining slopes deviations v i = 0) ↔ v = k.step := by
  rw [card_telling] at hsquare
  have hs := solveByShape_of_correction? hrows hk hcols (by omega)
  have htarget : ((tellingRows slopes).map fun i => -deviations.getD i 0).size =
      (slopes.selectRows (tellingRows slopes)).rows := Array.size_map
  rw [solveByShape_direct htarget pivotThreshold hsquare] at hs
  simp only [Except.ok.injEq, Prod.mk.injEq] at hs
  obtain ⟨hstep, -, hsingular⟩ := hs
  rw [← hstep, ← Factors.mulVec_eq_iff hsquare.symm hpivot (hsingular.trans hregular) htarget
    (hv.trans hsquare.symm), forall_telling_iff]
  have hentry : ∀ r < (tellingRows slopes).size,
      ((slopes.selectRows (tellingRows slopes)).mulVec v).getD r 0 =
        ∑ j ∈ Finset.range slopes.cols,
          (slopes.selectRows (tellingRows slopes)).entry r j * v.getD j 0 :=
    fun r hr => Dense.Matrix.getD_mulVec hv hr
  constructor
  · intro h
    refine ext_getD (n := (tellingRows slopes).size) (Dense.Matrix.size_mulVec _ _) htarget ?_
    intro r hr
    rw [hentry r hr]
    exact (selected_iff hr).2 (h r hr)
  · intro h r hr
    rw [← selected_iff hr, ← hentry r hr, h]

end Best

/-- Whatever its shape, a system that is told something is given the best step. -/
theorem correction_best (slopes : Dense.Matrix ℝ) (deviations : Array ℝ) (pivotThreshold : ℝ)
    (hrows : slopes.rows = deviations.size) (hcols : 0 < slopes.cols)
    (hpivot : 0 < pivotThreshold) :
    ∃ k, correction? slopes deviations pivotThreshold = .ok k ∧ k.Best slopes deviations := by
  obtain ⟨k, hk, hsize⟩ := correction?_total hrows pivotThreshold
  have hshortest : k.singularPivots = 0 →
      IsShortest ((equations slopes deviations).filter Equation.tells) (vec slopes.cols k.step) :=
    isShortest_of_correctionOf? hpivot (correction?_eq hrows pivotThreshold ▸ hk)
  have hresidual : ∀ (v : Array ℝ), ∀ i ∈ telling slopes,
      (⟨slopes.row i, deviations.getD i 0⟩ : Equation ℝ).residual (vec slopes.cols v) =
        remaining slopes deviations v i :=
    fun v i hi => residual_row (Finset.mem_range.1 (Finset.mem_filter.1 hi).1)
  refine ⟨k, hk, hsize, ?_, ?_, ?_, telling_le_met hrows hk hpivot⟩
  · intro hregular hsquare v hv
    exact remaining_eq_zero_iff hrows hk hpivot hregular hsquare hcols.ne' hv
  · intro hregular _ v _
    have hsum : ∀ v : Array ℝ, ∑ i ∈ telling slopes, remaining slopes deviations v i ^ 2 =
        (((equations slopes deviations).filter Equation.tells).map
          fun e => e.residual (vec slopes.cols v) ^ 2).sum := by
      intro v
      rw [sum_told]
      exact Finset.sum_congr rfl fun i hi => by rw [hresidual v i hi]
    rw [hsum, hsum]
    exact (hshortest hregular).sum_sq_le (vec slopes.cols v)
  · intro hregular hwide
    have hzero := fun i hi => remaining_eq_zero hrows hk hpivot hregular hwide.le (i := i) hi
    refine ⟨hzero, fun v hv hv' => ?_⟩
    rw [norm_eq_vec hsize, norm_eq_vec hv]
    refine Real.sqrt_le_sqrt ((hshortest hregular).dotProduct_le ?_)
    intro e he
    rw [filter_equations] at he
    obtain ⟨i, hi, rfl⟩ := List.mem_map.1 he
    have hi' := mem_telling.2 hi
    rw [hresidual v i hi', hresidual k.step i hi', hv' i hi', hzero i hi']

/-- One row of length one, in two unknowns. -/
noncomputable def slanted : Dense.Matrix ℝ := .ofFn 1 2 fun _ j => if j = 0 then 0.6 else 0.8

/-- The step goes along the row, and no other that makes up for the deviation is shorter. -/
theorem correction_best_slanted : ∃ k, correction? slanted #[10] (1 / 1000) = .ok k ∧
    k.singularPivots = 0 ∧ 0.6 * k.step.getD 0 0 + 0.8 * k.step.getD 1 0 + 10 = 0 ∧
      ∀ v : Array ℝ, v.size = 2 → 0.6 * v.getD 0 0 + 0.8 * v.getD 1 0 + 10 = 0 →
        norm k.step ≤ norm v := by
  obtain ⟨k, hk, hbest⟩ :=
    correction_best slanted #[10] (1 / 1000) rfl (by decide) (by norm_num)
  have hentry : ∀ j < 2, slanted.entry 0 j = if j = 0 then 0.6 else 0.8 :=
    fun j hj => Dense.Matrix.entry_ofFn _ (by decide) hj
  have hlength : Real.sqrt (∑ j ∈ Finset.range 2, slanted.entry 0 j ^ 2) = 1 := by
    rw [Finset.sum_range_succ, Finset.sum_range_one, hentry 0 (by decide), hentry 1 (by decide),
      Real.sqrt_eq_one]
    norm_num
  have hnorm : norm (slanted.row 0) = 1 := (norm_row (by decide)).trans hlength
  have htelling : telling slanted = {0} := Finset.filter_true_of_mem fun i hi => by
    rw [Finset.mem_singleton.1 hi]
    exact lt_of_lt_of_eq (by norm_num) hlength.symm
  have hremaining : ∀ v : Array ℝ, remaining slanted #[10] v 0 =
      0.6 * v.getD 0 0 + 0.8 * v.getD 1 0 + 10 := by
    intro v
    show ∑ j ∈ Finset.range 2, slanted.entry 0 j * v.getD j 0 + 10 = _
    rw [Finset.sum_range_succ, Finset.sum_range_one, hentry 0 (by decide), hentry 1 (by decide)]
    rfl
  have hregular : k.singularPivots = 0 := by
    have htold : (equations slanted #[10]).filter Equation.tells = [⟨slanted.row 0, 10⟩] := by
      refine List.filter_eq_self.2 fun e he => ?_
      rw [List.mem_singleton.1 he, Equation.tells, hnorm]
      exact decide_eq_true (by norm_num)
    have hone : vec 2 (slanted.row 0) ⬝ᵥ vec 2 (slanted.row 0) = 1 := by
      rw [← sq_norm (n := 2) (slanted.size_row (by decide)), hnorm, one_pow]
    rw [correction?_eq rfl, htold] at hk
    exact (correctionOf?_one (e := ⟨slanted.row 0, 10⟩) hone (by decide) (by norm_num)
      (by norm_num) hk).1
  obtain ⟨hzero, hshortest⟩ := hbest.shortest hregular (by rw [htelling]; decide)
  rw [htelling] at hzero hshortest
  refine ⟨k, hk, hregular, ?_, fun v hv hrow => ?_⟩
  · rw [← hremaining]
    exact hzero 0 (Finset.mem_singleton_self 0)
  · refine hshortest v hv fun i hi => ?_
    rw [Finset.mem_singleton.1 hi, hremaining, hrow]

end Joinery.Newton
