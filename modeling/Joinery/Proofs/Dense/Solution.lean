import Mathlib
import Joinery.Proofs.Dense.Solving
/-!
# What solving by elimination gives

The order of the rows is a permutation, the unknowns of singular columns are zero, and
each row whose place is not singular holds. Without singular columns the solution is the
only one, so a matrix that cannot be inverted has one. At most as many rows are missed as
there are singular columns.
-/

namespace Joinery.Dense

open scoped Joinery.Ordered

variable {K : Type} [Field K] [LinearOrder K]

/-- What stands in an array only once stands in one place. -/
theorem getD_inj {a : Array Nat} (ha : a.toList.Nodup) {i j : Nat} (hi : i < a.size)
    (hj : j < a.size) (h : a.getD i 0 = a.getD j 0) : i = j := by
  rw [getD_of_lt hi, getD_of_lt hj] at h
  exact ha.getElem_inj_iff.1 h

/-- Flags that are set are counted by their places. -/
theorem count_flags {flags : Array Bool} {n : Nat} (hn : flags.size = n) :
    flags.count true = ((Finset.range n).filter fun i => flags.getD i false = true).card := by
  subst hn
  have hflags : flags.toList = (List.range flags.size).map fun i => flags.getD i false := by
    refine List.ext_getElem (by simp) fun i hi _ => ?_
    have hi' : i < flags.size := by simpa using hi
    simp [Array.getD, hi']
  rw [← Array.count_toList, hflags, List.count, List.countP_map, List.countP_eq_length_filter]
  simp [Function.comp_def, Finset.card, Finset.filter, Finset.range, Multiset.range]

namespace Factors

/-- What factors of a square matrix and a solution for a right-hand side tell of the
matrix. -/
structure Solves (m : Matrix K) (b : Array K) (f : Factors K) (x : Array K) : Prop where
  order : f.order.toList.Perm (List.range m.rows)
  size_singular : f.singular.size = m.rows
  size : x.size = m.rows
  zero : ∀ k < m.rows, f.singular.getD k false = true → x.getD k 0 = 0
  row : ∀ i < m.rows, f.singular.getD i false = false →
    ∑ j ∈ Finset.range m.rows, m.entry (f.order.getD i 0) j * x.getD j 0 =
      b.getD (f.order.getD i 0) 0
  only : f.singularCount = 0 → ∀ y : Array K, y.size = m.rows → (m.mulVec y = b ↔ y = x)
  singular : ¬IsUnit (Matrix.of fun i j : Fin m.rows => m.entry i j) → 1 ≤ f.singularCount

section Order

variable {m : Matrix K} {f : Factors K} {threshold : K} {k i j : Nat} (h : Stage m threshold k f)
include h

theorem Stage.order_lt (hi : i < m.rows) : f.order.getD i 0 < m.rows := by
  rw [getD_of_lt (by rwa [h.size_order]), ← List.mem_range]
  exact h.order.mem_iff.1 (Array.getElem_mem_toList _)

/-- No row stands at two places. -/
theorem Stage.order_inj (hi : i < m.rows) (hj : j < m.rows)
    (heq : f.order.getD i 0 = f.order.getD j 0) : i = j :=
  getD_inj (h.order.nodup_iff.2 List.nodup_range) (by rwa [h.size_order]) (by rwa [h.size_order]) heq

end Order

variable [IsStrictOrderedRing K] {m : Matrix K} {pivotThreshold : K}

/-- At most as many rows are missed as there are singular columns. -/
theorem rows_le_met (hsquare : m.cols = m.rows) (hpivot : 0 < pivotThreshold) (b : Array K) :
    m.rows ≤ (ofMatrix m pivotThreshold).singularCount +
      ((Finset.range m.rows).filter fun i => ∑ j ∈ Finset.range m.rows, m.entry i j *
        ((ofMatrix m pivotThreshold).solve b).getD j 0 = b.getD i 0).card := by
  have hstage := stage_ofMatrix hsquare hpivot
  -- each place that is not singular stands for a row that holds, no two for the same
  have hplaces : ((Finset.range m.rows).filter fun i =>
      ¬(ofMatrix m pivotThreshold).singular.getD i false = true).card ≤
        ((Finset.range m.rows).filter fun i => ∑ j ∈ Finset.range m.rows, m.entry i j *
          ((ofMatrix m pivotThreshold).solve b).getD j 0 = b.getD i 0).card := by
    refine Finset.card_le_card_of_injOn ((ofMatrix m pivotThreshold).order.getD · 0) ?_ ?_
    · intro i hi
      obtain ⟨hlt, hfree⟩ := Finset.mem_filter.1 hi
      rw [Finset.mem_range] at hlt
      refine Finset.mem_coe.2 (Finset.mem_filter.2 ⟨Finset.mem_range.2 (hstage.order_lt hlt), ?_⟩)
      exact solve_row hsquare hpivot b hlt (by simpa using hfree)
    · intro i hi j hj hij
      exact hstage.order_inj (Finset.mem_range.1 (Finset.mem_filter.1 hi).1)
        (Finset.mem_range.1 (Finset.mem_filter.1 hj).1) hij
  have hsplit := Finset.card_filter_add_card_filter_not
    (s := Finset.range m.rows) (fun i => (ofMatrix m pivotThreshold).singular.getD i false = true)
  rw [Finset.card_range] at hsplit
  rw [singularCount, count_flags hstage.size_singular]
  omega

section Regular

variable (hsquare : m.cols = m.rows) (hpivot : 0 < pivotThreshold)
  (hregular : (ofMatrix m pivotThreshold).singularCount = 0)
include hsquare hpivot hregular

/-- Without singular columns the solution is the only one. -/
theorem mulVec_eq_iff {b y : Array K} (hb : b.size = m.rows) (hy : y.size = m.rows) :
    m.mulVec y = b ↔ y = (ofMatrix m pivotThreshold).solve b := by
  have hsolved : m.mulVec ((ofMatrix m pivotThreshold).solve b) = b := by
    refine ext_getD (n := m.rows) (by simp) hb fun i hi => ?_
    rw [Matrix.getD_mulVec (by simp [hsquare]) hi, hsquare]
    exact solve_eq hsquare hpivot hregular b hi
  constructor
  · intro hyb
    have hproduct := (mulVec_eq_iff_productMap hsquare hy hb).1 hyb
    rw [← (mulVec_eq_iff_productMap hsquare (by simp) hb).1 hsolved] at hproduct
    refine ext_getD hy (by simp) fun j hj => ?_
    exact congrFun (productMap_injective rfl hsquare hpivot hregular hproduct) ⟨j, hj⟩
  · rintro rfl
    exact hsolved

theorem isUnit_of_regular : IsUnit (Matrix.of fun i j : Fin m.rows => m.entry i j) := by
  rw [← Matrix.mulVec_injective_iff_isUnit]
  exact productMap_injective rfl hsquare hpivot hregular

end Regular

/-- Elimination solves every square system, as far as it can be solved without the columns
it gives up. -/
theorem elimination_solves (m : Matrix K) (hsquare : m.rows = m.cols) (pivotThreshold : K)
    (hpivot : 0 < pivotThreshold) (b : Array K) (hb : b.size = m.rows) :
    ∃ f x, ofMatrix? m pivotThreshold = .ok f ∧ f.solve? b = .ok x ∧ Solves m b f x := by
  have hstage := stage_ofMatrix hsquare.symm hpivot
  refine ⟨_, _, if_pos hsquare, if_pos (by rw [hb, rows_ofMatrix]), hstage.order,
    hstage.size_singular, by simp, ?_, ?_, ?_, ?_⟩
  · intro k hk
    exact solve_singular (by simpa using hk)
  · intro i hi hfree
    exact solve_row hsquare.symm hpivot b hi hfree
  · intro hregular y hy
    exact mulVec_eq_iff hsquare.symm hpivot hregular hb hy
  · intro hsingular
    rw [Nat.one_le_iff_ne_zero]
    exact fun hregular => hsingular (isUnit_of_regular hsquare.symm hpivot hregular)

/-- Three rows of which the last is what the other two give together. -/
def wobbly : Matrix ℚ :=
  .ofFn 3 3 fun i j => (#[#[0, 2, 1], #[1, 1, 1], #[2, 6, 4]].getD i #[]).getD j 0

/-- The first row is given up with the last column, the two others hold. -/
theorem elimination_solves_wobbly :
    ∃ f x, ofMatrix? wobbly (1 / 1000) = .ok f ∧ f.solve? #[2, 1, 5] = .ok x ∧
      f.singularCount = 1 ∧ x.getD 2 0 = 0 ∧
      x.getD 0 0 + x.getD 1 0 + x.getD 2 0 = 1 ∧
      2 * x.getD 0 0 + 6 * x.getD 1 0 + 4 * x.getD 2 0 = 5 := by
  obtain ⟨f, x, hf, hx, h⟩ :=
    elimination_solves wobbly rfl (1 / 1000) (by norm_num) #[2, 1, 5] rfl
  have hfactors : f.singular = #[false, false, true] ∧ f.order = #[2, 1, 0] := by
    cases hf
    decide +kernel
  have hlast := h.zero 2 (by decide) (by rw [hfactors.1]; rfl)
  have hmiddle := h.row 1 (by decide) (by rw [hfactors.1]; rfl)
  have hfirst := h.row 0 (by decide) (by rw [hfactors.1]; rfl)
  rw [hfactors.2] at hmiddle hfirst
  refine ⟨f, x, hf, hx, ?_, hlast, ?_, ?_⟩
  · rw [singularCount, hfactors.1]
    rfl
  · simpa [wobbly, Finset.sum_range_succ, Matrix.entry_ofFn] using hmiddle
  · simpa [wobbly, Finset.sum_range_succ, Matrix.entry_ofFn] using hfirst

end Factors

end Joinery.Dense
