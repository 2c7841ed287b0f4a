import Mathlib
import Joinery.Proofs.Dense.Entries
import Joinery.Proofs.Scalar.Ordered
/-!
# Products over an ordered field

Where nothing is rounded, products of matrices and columns are sums over their entries.
A row whose first factor is zero may be left out of such a sum, and symmetric entries
may be copied.
-/

namespace Joinery.Dense

open scoped Joinery.Ordered

variable {K : Type} [Field K] [LinearOrder K]

theorem foldl_eq_sum (l : List K) (first : K) :
    l.foldl (· + ·) first = first + ∑ j ∈ Finset.range l.length, l.getD j 0 := by
  induction l generalizing first with
  | nil => simp
  | cons x rest ih =>
    rw [List.foldl_cons, ih, List.length_cons, Finset.sum_range_succ', add_comm _ (List.getD _ 0 _),
      ← add_assoc]
    rfl

/-- The product of two vectors of one size. -/
theorem dot_eq_sum {a b : Array K} {n : Nat} (ha : a.size = n) (hb : b.size = n) :
    dot a b = ∑ j ∈ Finset.range n, a.getD j 0 * b.getD j 0 := by
  unfold dot
  rw [← Array.foldl_toList, foldl_eq_sum, zero_add]
  refine Finset.sum_congr (by simp [ha, hb]) ?_
  intro j hj
  have hj' : j < n := by simpa [ha, hb] using Finset.mem_range.1 hj
  simp [List.getD_eq_getElem?_getD, Array.getD, ha, hb, hj']

namespace Matrix

variable {m : Matrix K} {i j : Nat}

theorem getD_mulVec {v : Array K} (hv : v.size = m.cols) (hi : i < m.rows) :
    (m.mulVec v).getD i 0 = ∑ j ∈ Finset.range m.cols, m.entry i j * v.getD j 0 := by
  rw [mulVec, getD_ofFn _ hi, dot_eq_sum (m.size_row hi) hv]
  exact Finset.sum_congr rfl fun j hj => by rw [m.getD_row hi (Finset.mem_range.1 hj)]

theorem getD_transposeMulVec (v : Array K) (hj : j < m.cols) :
    (m.transposeMulVec v).getD j 0 = ∑ i ∈ Finset.range m.rows, v.getD i 0 * m.entry i j := by
  rw [transposeMulVec, getD_ofFn _ hj, Ordered.foldl_add, zero_add]

theorem gramEntry_eq_sum (m : Matrix K) (i j : Nat) :
    m.gramEntry i j = ∑ k ∈ Finset.range m.rows, m.entry k i * m.entry k j := by
  have hskip : ∀ (sum : K) (k : Nat), (if m.entry k i == 0 then sum
      else sum + m.entry k i * m.entry k j) = sum + m.entry k i * m.entry k j := by
    intro sum k
    split
    case isTrue h => rw [Ordered.beq_iff.1 h, zero_mul, add_zero]
    case isFalse => rfl
  unfold gramEntry
  simp only [hskip]
  rw [Ordered.foldl_add, zero_add]

theorem entry_gram (hi : i < m.cols) (hj : j < m.cols) :
    m.gram.entry i j = ∑ k ∈ Finset.range m.rows, m.entry k i * m.entry k j := by
  rw [gram, entry_ofUpper _ hi hj]
  split
  · exact gramEntry_eq_sum m i j
  · rw [gramEntry_eq_sum]
    exact Finset.sum_congr rfl fun k _ => mul_comm _ _

theorem dot_row (hi : i < m.rows) (hj : j < m.rows) :
    dot (m.row i) (m.row j) = ∑ k ∈ Finset.range m.cols, m.entry i k * m.entry j k := by
  rw [dot_eq_sum (m.size_row hi) (m.size_row hj)]
  refine Finset.sum_congr rfl fun k hk => ?_
  rw [m.getD_row hi (Finset.mem_range.1 hk), m.getD_row hj (Finset.mem_range.1 hk)]

theorem entry_outerGram (hi : i < m.rows) (hj : j < m.rows) :
    m.outerGram.entry i j = ∑ k ∈ Finset.range m.cols, m.entry i k * m.entry j k := by
  rw [outerGram, entry_ofUpper _ hi hj, m.getD_rows hi, m.getD_rows hj]
  split
  · exact dot_row hi hj
  · rw [dot_row hj hi]
    exact Finset.sum_congr rfl fun k _ => mul_comm _ _

/-- The product with the transpose in front is taken one factor after the other. -/
theorem gram_mulVec {v : Array K} (hv : v.size = m.cols) :
    m.gram.mulVec v = m.transposeMulVec (m.mulVec v) := by
  refine ext_getD (n := m.cols) (size_mulVec _ _) (by simp) fun j hj => ?_
  calc (m.gram.mulVec v).getD j 0
      = ∑ k ∈ Finset.range m.cols, ∑ i ∈ Finset.range m.rows,
          m.entry i k * v.getD k 0 * m.entry i j := by
        refine (getD_mulVec (m := m.gram) hv hj).trans (Finset.sum_congr rfl fun k hk => ?_)
        rw [entry_gram hj (Finset.mem_range.1 hk), Finset.sum_mul]
        exact Finset.sum_congr rfl fun i _ => by ring
    _ = (m.transposeMulVec (m.mulVec v)).getD j 0 := by
        rw [getD_transposeMulVec _ hj, Finset.sum_comm]
        refine Finset.sum_congr rfl fun i hi => ?_
        rw [getD_mulVec hv (Finset.mem_range.1 hi), Finset.sum_mul]

/-- The product with the transpose is taken one factor after the other. -/
theorem sum_outerGram (v : Array K) (hi : i < m.rows) :
    ∑ k ∈ Finset.range m.rows, m.outerGram.entry i k * v.getD k 0 =
      ∑ j ∈ Finset.range m.cols, m.entry i j * (m.transposeMulVec v).getD j 0 := by
  calc ∑ k ∈ Finset.range m.rows, m.outerGram.entry i k * v.getD k 0
      = ∑ k ∈ Finset.range m.rows, ∑ j ∈ Finset.range m.cols,
          m.entry i j * (v.getD k 0 * m.entry k j) := by
        refine Finset.sum_congr rfl fun k hk => ?_
        rw [entry_outerGram hi (Finset.mem_range.1 hk), Finset.sum_mul]
        exact Finset.sum_congr rfl fun j _ => by ring
    _ = ∑ j ∈ Finset.range m.cols, m.entry i j * (m.transposeMulVec v).getD j 0 := by
        rw [Finset.sum_comm]
        refine Finset.sum_congr rfl fun j hj => ?_
        rw [getD_transposeMulVec v (Finset.mem_range.1 hj), Finset.mul_sum]

end Matrix

end Joinery.Dense
