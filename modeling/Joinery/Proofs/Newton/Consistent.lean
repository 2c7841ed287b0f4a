import Mathlib
import Joinery.Proofs.Dense.Consistent
import Joinery.Proofs.Newton.Optimal
/-!
# Steps for rows that depend on each other

With more rows than unknowns a step is to solve the normal equations, which always have a
solution. Where the rows do not tell all unknowns apart, some columns are given up, and
rows with them: the normal equations hold for all deviations exactly if the columns that are
kept are as many as the rank of the rows.
-/

namespace Joinery.Newton

open Joinery.Dense

section Normal

variable {slopes : Dense.Matrix ℝ} {deviations v : Array ℝ} {j : Nat}

/-- What is left of the deviations, seen from one unknown. -/
noncomputable def imbalance (slopes : Dense.Matrix ℝ) (deviations v : Array ℝ) (j : Nat) : ℝ :=
  ∑ i ∈ telling slopes, slopes.entry i j * remaining slopes deviations v i

/-- Sums over the rows that tell something run over those that are selected. -/
theorem sum_telling (g : Nat → ℝ) : ∑ i ∈ telling slopes, g i =
    ∑ r ∈ Finset.range (tellingRows slopes).size, g ((tellingRows slopes).getD r 0) := by
  refine (Finset.sum_nbij ((tellingRows slopes).getD · 0) ?_ ?_ ?_ fun _ _ => rfl).symm
  · exact fun r hr => getD_mem_telling (Finset.mem_range.1 hr)
  · intro r hr r' hr' heq
    exact getD_inj nodup_tellingRows (Finset.mem_range.1 hr) (Finset.mem_range.1 hr') heq
  · intro i hi
    obtain ⟨r, hr, rfl⟩ := List.getElem_of_mem (mem_telling.1 hi)
    exact ⟨r, Finset.mem_coe.2 (Finset.mem_range.2 hr), getD_of_lt hr⟩

/-- A normal equation is missed by what an unknown sees of the deviations that are left. -/
theorem sub_normal (hv : v.size = slopes.cols) (hj : j < slopes.cols) :
    ((slopes.selectRows (tellingRows slopes)).gram.mulVec v).getD j 0 -
        ((slopes.selectRows (tellingRows slopes)).transposeMulVec
          ((tellingRows slopes).map fun i => -deviations.getD i 0)).getD j 0 =
      imbalance slopes deviations v j := by
  have hv' : v.size = (slopes.selectRows (tellingRows slopes)).cols := hv
  have hj' : j < (slopes.selectRows (tellingRows slopes)).cols := hj
  rw [Dense.Matrix.gram_mulVec hv', Dense.Matrix.getD_transposeMulVec _ hj',
    Dense.Matrix.getD_transposeMulVec _ hj', ← Finset.sum_sub_distrib, imbalance, sum_telling]
  refine Finset.sum_congr rfl fun r hr => ?_
  have hlt := Finset.mem_range.1 hr
  rw [← sub_mul, Dense.Matrix.getD_mulVec hv' hlt, mul_comm, Dense.Matrix.entry_selectRows _ hlt hj,
    ← getD_of_lt hlt]
  exact congrArg _ (sub_selected hlt)

theorem normal_iff (hv : v.size = slopes.cols) :
    (slopes.selectRows (tellingRows slopes)).gram.mulVec v =
        (slopes.selectRows (tellingRows slopes)).transposeMulVec
          ((tellingRows slopes).map fun i => -deviations.getD i 0) ↔
      ∀ j < slopes.cols, imbalance slopes deviations v j = 0 := by
  constructor
  · intro h j hj
    rw [← sub_normal hv hj, h, sub_self]
  · intro h
    refine ext_getD (n := slopes.cols) (Dense.Matrix.size_mulVec _ _) (by simp) fun j hj => ?_
    rw [← sub_eq_zero, sub_normal hv hj, h j hj]

/-- Any target may be asked of the rows that tell something. -/
theorem exists_deviations {target : Array ℝ} (htarget : target.size = (tellingRows slopes).size) :
    ∃ deviations : Array ℝ, slopes.rows = deviations.size ∧
      ((tellingRows slopes).map fun i => -deviations.getD i 0) = target := by
  refine ⟨Array.ofFn fun i : Fin slopes.rows =>
    -target.getD ((tellingRows slopes).toList.idxOf i.val) 0, by simp, ?_⟩
  refine ext_getD (n := (tellingRows slopes).size) (by simp) htarget fun r hr => ?_
  have hlt : (tellingRows slopes)[r] < slopes.rows := tellingRows_lt (Array.getElem_mem hr)
  rw [getD_of_lt (by simpa using hr), Array.getElem_map, getD_ofFn _ hlt, neg_neg]
  exact congrArg (target.getD · 0) (nodup_tellingRows.idxOf_getElem r hr)

end Normal

/-- What corrections make of the normal equations for some slopes, of whose products by columns
they use the given factors. -/
structure NormalMet (slopes : Dense.Matrix ℝ) (pivotThreshold : ℝ) (f : Factors ℝ) : Prop where
  found : ∀ deviations : Array ℝ, slopes.rows = deviations.size → ∃ k,
    correction? slopes deviations pivotThreshold = .ok k ∧ k.method = .normalEquations ∧
      k.singularPivots = f.singularCount
  /-- They hold exactly if they do for some step that is zero at all singular columns. -/
  met : ∀ deviations k, correction? slopes deviations pivotThreshold = .ok k →
    ((∀ j < slopes.cols, imbalance slopes deviations k.step j = 0) ↔
      ∃ v : Array ℝ, v.size = slopes.cols ∧
        (∀ j, f.singular.getD j false = true → v.getD j 0 = 0) ∧
          ∀ j < slopes.cols, imbalance slopes deviations v j = 0)
  /-- They hold for all deviations exactly if the columns that are kept are as many as the
  rank of the rows that tell something. -/
  all : (∀ deviations k, correction? slopes deviations pivotThreshold = .ok k →
    ∀ j < slopes.cols, imbalance slopes deviations k.step j = 0) ↔
      (slopes.selectRows (tellingRows slopes)).rank + f.singularCount = slopes.cols

section Deficient

variable {slopes : Dense.Matrix ℝ} {deviations : Array ℝ} {pivotThreshold : ℝ} {k : Correction ℝ}

theorem rows_eq_size (hk : correction? slopes deviations pivotThreshold = .ok k) :
    slopes.rows = deviations.size := by
  by_contra hne
  unfold correction? at hk
  rw [if_pos hne] at hk
  cases hk

/-- With more rows than unknowns the step of a correction is what elimination finds for the
normal equations. -/
theorem step_of_tall (hcols : 0 < slopes.cols) (htall : slopes.cols < (telling slopes).card)
    (hk : correction? slopes deviations pivotThreshold = .ok k) :
    k.step = (Factors.ofMatrix (slopes.selectRows (tellingRows slopes)).gram pivotThreshold).solve
        ((slopes.selectRows (tellingRows slopes)).transposeMulVec
          ((tellingRows slopes).map fun i => -deviations.getD i 0)) ∧
      k.method = .normalEquations ∧ k.singularPivots = (Factors.ofMatrix
        (slopes.selectRows (tellingRows slopes)).gram pivotThreshold).singularCount := by
  rw [card_telling] at htall
  have hs := solveByShape_of_correction? (rows_eq_size hk) hk hcols.ne' (by omega)
  rw [solveByShape_tall (by simp) pivotThreshold htall] at hs
  simp only [Except.ok.injEq, Prod.mk.injEq] at hs
  exact ⟨hs.1.symm, hs.2.1.symm, hs.2.2.symm⟩

theorem size_step_of_correction? (hk : correction? slopes deviations pivotThreshold = .ok k) :
    k.step.size = slopes.cols := by
  obtain ⟨k', hk', hsize⟩ := correction?_total (rows_eq_size hk) pivotThreshold
  cases hk.symm.trans hk'
  exact hsize

theorem normalMet (hpivot : 0 < pivotThreshold) (hcols : 0 < slopes.cols)
    (htall : slopes.cols < (telling slopes).card) :
    NormalMet slopes pivotThreshold
      (Factors.ofMatrix (slopes.selectRows (tellingRows slopes)).gram pivotThreshold) := by
  have hstep : ∀ {deviations k}, correction? slopes deviations pivotThreshold = .ok k → _ :=
    fun hk => (step_of_tall hcols htall hk).1
  refine ⟨?_, ?_, ?_⟩
  · intro deviations hrows
    obtain ⟨k, hk, -⟩ := correction?_total hrows pivotThreshold
    exact ⟨k, hk, (step_of_tall hcols htall hk).2⟩
  · intro deviations k hk
    rw [← normal_iff (size_step_of_correction? hk), hstep hk,
      Factors.mulVec_solve_iff rfl hpivot (by simp; rfl)]
    refine exists_congr fun v => and_congr_right fun hv => and_congr_right fun _ => ?_
    exact normal_iff hv
  · refine Iff.trans ?_ (Factors.meets_normal_iff (slopes.selectRows (tellingRows slopes)) hpivot)
    constructor
    · intro h target htarget
      obtain ⟨deviations, hrows, rfl⟩ := exists_deviations htarget
      obtain ⟨k, hk, hsize⟩ := correction?_total hrows pivotThreshold
      rw [← hstep hk]
      exact (normal_iff hsize).2 (h deviations k hk)
    · intro h deviations k hk
      refine (normal_iff (size_step_of_correction? hk)).1 ?_
      rw [hstep hk]
      exact h _ (by simp)

end Deficient

/-- Elimination meets a right-hand side exactly if some solution does without the columns that
it gives up, and all that have solutions exactly if it keeps as many columns as the rank. So
do steps with the normal equations. -/
theorem consistent_met_iff (pivotThreshold : ℝ) (hpivot : 0 < pivotThreshold) :
    (∀ m : Dense.Matrix ℝ, m.rows = m.cols →
      ∃ f, Factors.ofMatrix? m pivotThreshold = .ok f ∧ f.Meets m) ∧
    ∀ slopes : Dense.Matrix ℝ, 0 < slopes.cols → slopes.cols < (telling slopes).card →
      ∃ f, Factors.ofMatrix? (slopes.selectRows (tellingRows slopes)).gram pivotThreshold = .ok f ∧
        NormalMet slopes pivotThreshold f :=
  ⟨fun _ hsquare => ⟨_, if_pos hsquare, Factors.meets_ofMatrix hsquare.symm hpivot⟩,
    fun _ hcols htall => ⟨_, if_pos rfl, normalMet hpivot hcols htall⟩⟩

/-- Three rows that all see the first unknown only. -/
noncomputable def onesided : Dense.Matrix ℝ := .ofFn 3 2 fun _ j => if j = 0 then 1 else 0

theorem entry_onesided {i j : Nat} (hi : i < 3) (hj : j < 2) :
    onesided.entry i j = if j = 0 then 1 else 0 :=
  Dense.Matrix.entry_ofFn _ hi hj

theorem tellingRows_onesided : tellingRows onesided = #[0, 1, 2] := by
  refine congrArg List.toArray (List.filter_eq_self.2 fun i hi => decide_eq_true ?_)
  have hlt : i < 3 := List.mem_range.1 hi
  have hsquares : ∑ j ∈ Finset.range 2, onesided.entry i j ^ 2 = 1 := by
    rw [Finset.sum_range_succ, Finset.sum_range_one, entry_onesided hlt (by decide),
      entry_onesided hlt (by decide)]
    norm_num
  have hnorm : Dense.norm (onesided.row i) = 1 :=
    (norm_row hlt).trans ((congrArg Real.sqrt hsquares).trans Real.sqrt_one)
  rw [hnorm]
  norm_num

theorem selectRows_onesided : onesided.selectRows (tellingRows onesided) = onesided := by
  rw [tellingRows_onesided]
  refine Dense.Matrix.ext_entry rfl rfl fun i j hi hj => ?_
  have hi' : i < 3 := hi
  refine (Dense.Matrix.entry_selectRows onesided hi hj).trans ?_
  interval_cases i <;> rfl

theorem rank_onesided_le : onesided.rank ≤ 1 := by
  have hproduct : Matrix.of (fun (i : Fin 3) (j : Fin 2) => onesided.entry i j) =
      Matrix.vecMulVec (fun _ => 1) fun j : Fin 2 => if j.val = 0 then 1 else 0 := by
    ext i j
    rw [Matrix.of_apply, entry_onesided i.isLt j.isLt, Matrix.vecMulVec_apply, one_mul]
  exact (congrArg Matrix.rank hproduct).trans_le (Matrix.rank_vecMulVec_le _ _)

theorem gram_onesided :
    onesided.gram = .ofFn 2 2 fun i j => if i = 0 ∧ j = 0 then 3 else 0 := by
  refine Dense.Matrix.ext_entry rfl rfl fun i j hi hj => ?_
  have hi' : i < 2 := hi
  have hj' : j < 2 := hj
  rw [Dense.Matrix.entry_gram hi hj, Dense.Matrix.entry_ofFn _ hi' hj']
  show ∑ k ∈ Finset.range 3, onesided.entry k i * onesided.entry k j = _
  rw [Finset.sum_congr rfl fun k hk => by
    rw [entry_onesided (Finset.mem_range.1 hk) hi', entry_onesided (Finset.mem_range.1 hk) hj']]
  interval_cases i <;> interval_cases j <;> norm_num

/-- The first column has a pivot of three. -/
theorem singularCount_onesided_le :
    (Factors.ofMatrix onesided.gram (1 / 1000)).singularCount ≤ 1 := by
  have hpivot : (0 : ℝ) < 1 / 1000 := by norm_num
  have hmax : onesided.gram.maxAbs = 3 := by
    rw [gram_onesided]
    show Arithmetic.max (Arithmetic.max (Arithmetic.max (Arithmetic.max (0 : ℝ) |3|) |0|) |0|) |0| = 3
    norm_num [Ordered.max_eq]
  have hkept : ¬(Factors.ofMatrix onesided.gram (1 / 1000)).singular.getD 0 false = true := by
    intro hsingular
    have hsmall := (Factors.singular_ofMatrix_iff rfl hpivot (by decide)).1 hsingular 0
      (by decide) le_rfl
    rw [hmax] at hsmall
    have hthree : onesided.gram.entry 0 0 = 3 := by
      rw [gram_onesided, Dense.Matrix.entry_ofFn _ (by decide) (by decide)]
      norm_num
    have hentry : (Factors.upTo onesided.gram (1 / 1000) 0).entries.entry 0 0 = 3 := hthree
    rw [hentry] at hsmall
    norm_num at hsmall
  have hsize : (Factors.ofMatrix onesided.gram (1 / 1000)).singular.size = 2 :=
    (Factors.stage_ofMatrix rfl hpivot).size_singular
  rw [Factors.singularCount, count_flags hsize]
  refine (Finset.card_le_card fun i hi => ?_).trans_eq (Finset.card_singleton 1)
  obtain ⟨hlt, hflag⟩ := Finset.mem_filter.1 hi
  have hne : i ≠ 0 := by
    rintro rfl
    exact hkept hflag
  rw [Finset.mem_range] at hlt
  exact Finset.mem_singleton.2 (by omega)

/-- The second unknown is given up and nothing is lost with it: the step undoes the mean of the
deviations. -/
theorem consistent_met_iff_onesided : ∃ k, correction? onesided #[1, 2, 6] (1 / 1000) = .ok k ∧
    k.singularPivots = 1 ∧ 3 * k.step.getD 0 0 + 9 = 0 := by
  obtain ⟨-, htall⟩ := consistent_met_iff (1 / 1000) (by norm_num)
  obtain ⟨f, hf, h⟩ := htall onesided (by decide) (by rw [card_telling, tellingRows_onesided]; decide)
  obtain ⟨k, hk, -, hsingular⟩ := h.found #[1, 2, 6] rfl
  cases hf
  have hall := h.all
  rw [selectRows_onesided] at hall hsingular
  -- one column tells all there is to tell, so one is kept and one given up
  have hle := Factors.le_rank_add (m := onesided.gram) rfl (show (0 : ℝ) < 1 / 1000 by norm_num)
  rw [Factors.rank_gram] at hle
  have hone := singularCount_onesided_le
  have hlow := rank_onesided_le
  have hrows : onesided.gram.rows = 2 := rfl
  rw [hrows] at hle
  have hnormal := hall.2 (by show _ = 2; omega) _ k hk 0 (by decide)
  refine ⟨k, hk, by omega, ?_⟩
  have hremaining : ∀ i < 3, onesided.entry i 0 * remaining onesided #[1, 2, 6] k.step i =
      k.step.getD 0 0 + #[1, 2, 6].getD i 0 := by
    intro i hi
    show onesided.entry i 0 *
      (∑ j ∈ Finset.range 2, onesided.entry i j * k.step.getD j 0 + _) = _
    rw [Finset.sum_range_succ, Finset.sum_range_one, entry_onesided hi (by decide),
      entry_onesided hi (by decide), if_pos rfl, if_neg one_ne_zero]
    ring
  have htelling : telling onesided = Finset.range 3 := by
    rw [telling_eq, tellingRows_onesided]
    rfl
  rw [imbalance, htelling, Finset.sum_congr rfl fun i hi => hremaining i (Finset.mem_range.1 hi),
    Finset.sum_range_succ, Finset.sum_range_succ, Finset.sum_range_one] at hnormal
  have hdeviations : (#[1, 2, 6] : Array ℝ).getD 0 0 = 1 ∧ (#[1, 2, 6] : Array ℝ).getD 1 0 = 2 ∧
      (#[1, 2, 6] : Array ℝ).getD 2 0 = 6 := ⟨rfl, rfl, rfl⟩
  rw [hdeviations.1, hdeviations.2.1, hdeviations.2.2] at hnormal
  linarith

end Joinery.Newton
