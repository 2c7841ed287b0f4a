import Joinery.Dense.Elimination
import Joinery.Proofs.Scalar.Laws
/-!
# Blank columns

A column of zeros, or of what is not a number, stays blank through elimination
whatever stands in the other columns. None of its candidates can be a pivot, so
it is counted as singular, and its unknown is zero. The same goes for the
products of a matrix with its transpose.
-/

namespace Joinery.Dense

open Arithmetic LawfulOrder LawfulArithmetic

variable {α : Type} [Arithmetic α]

/-- Nothing in column `j` adds anything. -/
def Matrix.BlankColumn (m : Matrix α) (j : Nat) : Prop := ∀ i < m.rows, Blank (m.entry i j)

namespace Matrix

variable {m : Matrix α} {j : Nat}

theorem BlankColumn.selectRows (h : m.BlankColumn j) (hj : j < m.cols) {indices : Array Nat}
    (hrows : ∀ i ∈ indices, i < m.rows) : (m.selectRows indices).BlankColumn j := by
  intro i hi
  have hi' : i < indices.size := hi
  rw [entry_selectRows m hi' hj]
  exact h _ (hrows _ (Array.getElem_mem hi'))

theorem BlankColumn.swapRows (h : m.BlankColumn j) (hj : j < m.cols) {a b : Nat}
    (ha : a < m.rows) (hb : b < m.rows) : (m.swapRows a b).BlankColumn j := by
  intro i hi
  have hi' : i < m.rows := hi
  rw [entry_swapRows m a b hi' hj]
  apply h
  split
  · exact hb
  · split
    · exact ha
    · exact hi'

/-- The row of a pivot is a row of the matrix. -/
theorem pivot_lt {k : Nat} (hk : k < m.rows) : (m.pivot k).1 < m.rows := by
  unfold Matrix.pivot
  refine List.foldlRecOn (motive := fun best : Nat × α => best.1 < m.rows) _ _ hk ?_
  intro best hbest i hi
  dsimp only
  split
  · have := List.mem_range'_1.1 hi
    omega
  · exact hbest

variable [LawfulArithmetic α]

/-- The best candidate of a blank column is blank. -/
theorem BlankColumn.pivot (h : m.BlankColumn j) (hj : j < m.rows) : Blank (m.pivot j).2 := by
  unfold Matrix.pivot
  refine List.foldlRecOn (motive := fun best : Nat × α => Blank best.2) _ _ (blank_abs (h j hj)) ?_
  intro best hbest i hi
  dsimp only
  split
  · have := List.mem_range'_1.1 hi
    exact blank_abs (h i (by omega))
  · exact hbest

theorem BlankColumn.clearBelow (h : m.BlankColumn j) (hj : j < m.cols) (k : Nat) :
    (m.clearBelow k).BlankColumn j := by
  intro i hi
  have hi' : i < m.rows := hi
  rw [Matrix.clearBelow, entry_ofFn _ hi' hj]
  split
  · exact blank_zero
  · exact h i hi'

/-- Taking multiples of a row from others leaves blanks in a column that is not
the one being cleared. -/
theorem BlankColumn.reduceBelow (h : m.BlankColumn j) (hj : j < m.cols) {k : Nat}
    (hk : k < m.rows) (hne : j ≠ k) : (m.reduceBelow k).BlankColumn j := by
  intro i hi
  have hi' : i < m.rows := hi
  rw [Matrix.reduceBelow, entry_ofFn _ hi' hj]
  split
  · exact h i hi'
  · dsimp only
    split
    · exact h i hi'
    · exact blank_sub (h i hi') (blank_mul_right (h k hk))

end Matrix

/-! ## Elimination -/

namespace Factors

variable [LawfulArithmetic α] {f : Factors α} {j : Nat} {threshold : α}

/-- What elimination keeps of a square matrix with a blank column. -/
structure Spares (f : Factors α) (j : Nat) : Prop where
  square : f.entries.cols = f.entries.rows
  size_singular : f.singular.size = f.entries.rows
  blank : f.entries.BlankColumn j

theorem Spares.eliminate (h : f.Spares j) (hj : j < f.entries.rows) (hthreshold : 0 < threshold)
    {k : Nat} (hk : k < f.entries.rows) : (f.eliminate threshold k).Spares j := by
  have hcols : j < f.entries.cols := by rw [h.square]; exact hj
  unfold Factors.eliminate
  dsimp only
  split
  case isTrue =>
    refine ⟨h.square, ?_, h.blank.clearBelow hcols k⟩
    rw [Array.size_setIfInBounds]
    exact h.size_singular
  case isFalse hlarge =>
    have hne : j ≠ k := by
      rintro rfl
      exact hlarge ((h.blank.pivot hj).isNaN_or_lt hthreshold)
    have hswap := h.blank.swapRows hcols hk (Matrix.pivot_lt hk)
    exact ⟨h.square, h.size_singular, hswap.reduceBelow hcols hk hne⟩

/-- Elimination finds a blank column singular when it comes to it. -/
theorem Spares.singular_eliminate (h : f.Spares j) (hj : j < f.entries.rows)
    (hthreshold : 0 < threshold) : (f.eliminate threshold j).singular.getD j false = true := by
  unfold Factors.eliminate
  dsimp only
  rw [if_pos ((h.blank.pivot hj).isNaN_or_lt hthreshold)]
  have hsize : j < f.singular.size := by rw [h.size_singular]; exact hj
  simp [Array.getD, hsize]

omit [LawfulArithmetic α] in
/-- What was found singular stays so. -/
theorem singular_mono (h : f.singular.getD j false = true) (k : Nat) :
    (f.eliminate threshold k).singular.getD j false = true := by
  unfold Factors.eliminate
  dsimp only
  split
  · by_cases hk : k = j
    · subst hk
      rw [Array.getD_eq_getD_getElem?] at h ⊢
      rw [Array.getElem?_setIfInBounds_self]
      split
      · rfl
      · rename_i hsize
        rw [Array.getElem?_eq_none (Nat.le_of_not_lt hsize)] at h
        exact h
    · rw [Array.getD_eq_getD_getElem?] at h ⊢
      rwa [Array.getElem?_setIfInBounds_ne hk]
  · exact h

omit [LawfulArithmetic α] in
theorem singular_foldl_mono (h : f.singular.getD j false = true) (l : List Nat) :
    (l.foldl (eliminate threshold) f).singular.getD j false = true := by
  induction l generalizing f with
  | nil => exact h
  | cons k rest ih => exact ih (singular_mono h k)

/-- Eliminating columns, a blank one among them, finds that one singular. -/
theorem Spares.singular_foldl (h : f.Spares j) (hthreshold : 0 < threshold) {l : List Nat}
    (hl : ∀ k ∈ l, k < f.entries.rows) (hj : j ∈ l) :
    (l.foldl (Factors.eliminate threshold) f).singular.getD j false = true := by
  induction l generalizing f with
  | nil => cases hj
  | cons k rest ih =>
    have hjrows := hl j hj
    rw [List.forall_mem_cons] at hl
    rcases List.mem_cons.1 hj with rfl | hj
    · exact singular_foldl_mono (h.singular_eliminate hjrows hthreshold) rest
    · refine ih (h.eliminate hjrows hthreshold hl.1) ?_ hj
      rw [rows_eliminate]
      exact hl.2

/-- A blank column of a square matrix is singular. -/
theorem singular_ofMatrix {m : Matrix α} {pivotThreshold : α} (hsquare : m.cols = m.rows)
    (h : m.BlankColumn j) (hj : j < m.rows) (hpivot : 0 < pivotThreshold) :
    (ofMatrix m pivotThreshold).singular.getD j false = true := by
  have hone : (1 : α) ≤ Arithmetic.max m.maxAbs 1 := le_max (isNaN_of_isFinite isFinite_one)
  refine Spares.singular_foldl ⟨hsquare, by simp, h⟩ (mul_pos_of_one_le hpivot hone) ?_ ?_
  · intro k hk
    exact List.mem_range.1 hk
  · exact List.mem_range.2 hj

end Factors

section Backward

omit [Arithmetic α]

/-- A list built from its end has at each place what was put there in front of the
rest. -/
theorem getElem?_foldr_cons (g : Nat → List α → α) {l : List Nat} {j i : Nat}
    (h : l[j]? = some i) :
    (l.foldr (fun i later => g i later :: later) [])[j]? =
      some (g i ((l.foldr (fun i later => g i later :: later) []).drop (j + 1))) := by
  induction l generalizing j with
  | nil => cases h
  | cons k rest ih =>
    cases j with
    | zero =>
      cases h
      rfl
    | succ j => exact ih h

end Backward

namespace Factors

/-- The unknown of a singular column is zero. -/
theorem solve_singular {f : Factors α} {b : Array α} {j : Nat} (hj : j < f.entries.rows)
    (h : f.singular.getD j false = true) : (f.solve b).getD j 0 = 0 := by
  have hrange : (List.range f.entries.rows)[j]? = some j := List.getElem?_range hj
  unfold solve backward
  rw [Array.getD_eq_getD_getElem?, List.getElem?_toArray, getElem?_foldr_cons _ hrange, h]
  rfl

end Factors

/-! ## Products -/

namespace Matrix

variable [LawfulArithmetic α] {m : Matrix α} {j : Nat}

theorem BlankColumn.gram (h : m.BlankColumn j) (hj : j < m.cols) : m.gram.BlankColumn j := by
  intro i hi
  have hi' : i < m.cols := hi
  rw [Matrix.gram, entry_ofUpper _ hi' hj]
  split
  all_goals unfold Matrix.gramEntry
  · refine List.foldlRecOn (motive := fun sum : α => Blank sum) _ _ blank_zero ?_
    intro sum hsum k hk
    split
    · exact hsum
    · exact blank_add hsum (blank_mul_right (h k (List.mem_range.1 hk)))
  · refine List.foldlRecOn (motive := fun sum : α => Blank sum) _ _ blank_zero ?_
    intro sum hsum k hk
    split
    · exact hsum
    · exact blank_add hsum (blank_mul_left (h k (List.mem_range.1 hk)))

theorem BlankColumn.transposeMulVec (h : m.BlankColumn j) (v : Array α) :
    Blank ((m.transposeMulVec v).getD j 0) := by
  unfold Matrix.transposeMulVec
  rw [Array.getD_eq_getD_getElem?, Array.getElem?_ofFn]
  split
  · exact blank_foldl_add (fun i hi => blank_mul_right (h i (List.mem_range.1 hi))) blank_zero
  · exact blank_zero

end Matrix

end Joinery.Dense
