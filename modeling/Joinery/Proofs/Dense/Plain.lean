import Mathlib
import Joinery.Proofs.Dense.InPlace
import Joinery.Proofs.Dense.Products
/-!
# Plain products

The product with a transpose is taken without the transpose, the symmetric products are
summed up on one side of the diagonal only, and terms with a zero are left out. Over an
ordered field none of this shows: each is the product it stands for (`PlainProducts`), also
where it is written in place.
-/

namespace Joinery.Dense.Matrix

open scoped Joinery.Ordered

variable {K : Type} [Field K] [LinearOrder K]

/-- The products of a matrix are the sums that they should be. -/
structure PlainProducts (m : Matrix K) : Prop where
  transpose_transpose : m.transpose.transpose = m
  transposeInPlace : m.transposeInPlace = m.transpose
  /-- The product of the transpose with a column is that of the matrix turned over. -/
  transposeMulVec : ∀ v : Array K, v.size = m.rows → ∃ w,
    m.transposeMulVec? v = .ok w ∧ m.transposeMulVecInPlace v = w ∧
      m.transpose.mulVec? v = .ok w ∧
      w = .ofFn fun j : Fin m.cols => ∑ i ∈ Finset.range m.rows, m.entry i j * v.getD i 0
  gram : m.gram =
    ofFn m.cols m.cols fun i j => ∑ k ∈ Finset.range m.rows, m.entry k i * m.entry k j
  gramInPlace : m.gramInPlace = m.gram
  gram_symm : m.gram.transpose = m.gram
  outerGram : m.outerGram =
    ofFn m.rows m.rows fun i j => ∑ k ∈ Finset.range m.cols, m.entry i k * m.entry j k
  outerGramInPlace : m.outerGramInPlace = m.outerGram
  outerGram_symm : m.outerGram.transpose = m.outerGram
  outerGram_eq : m.outerGram = m.transpose.gram

variable {m : Matrix K} {rows cols : Nat} {e : Nat → Nat → K}

theorem transpose_ofFn : (ofFn rows cols e).transpose = ofFn cols rows fun i j => e j i :=
  ofFn_congr fun _ hi _ hj => entry_ofFn _ hj hi

theorem transpose_transpose (m : Matrix K) : m.transpose.transpose = m :=
  transpose_ofFn.trans m.ofFn_entry

theorem transpose_mulVec {v : Array K} (hv : v.size = m.rows) :
    m.transpose.mulVec v = m.transposeMulVec v := by
  refine ext_getD (n := m.cols) (size_mulVec _ _) (by simp) fun j hj => ?_
  refine (getD_mulVec hv hj).trans ((getD_transposeMulVec v hj).trans ?_).symm
  refine Finset.sum_congr rfl fun i hi => ?_
  rw [entry_transpose m hj (Finset.mem_range.1 hi), mul_comm]

theorem transposeMulVec_eq (m : Matrix K) (v : Array K) : m.transposeMulVec v =
    .ofFn fun j : Fin m.cols => ∑ i ∈ Finset.range m.rows, m.entry i j * v.getD i 0 := by
  refine ext_getD (n := m.cols) (by simp) (by simp) fun j hj => ?_
  rw [getD_transposeMulVec v hj, getD_ofFn _ hj]
  exact Finset.sum_congr rfl fun i _ => mul_comm _ _

theorem gram_eq (m : Matrix K) : m.gram =
    ofFn m.cols m.cols fun i j => ∑ k ∈ Finset.range m.rows, m.entry k i * m.entry k j :=
  m.gram.ofFn_entry.symm.trans (ofFn_congr fun _ hi _ hj => entry_gram hi hj)

theorem outerGram_eq (m : Matrix K) : m.outerGram =
    ofFn m.rows m.rows fun i j => ∑ k ∈ Finset.range m.cols, m.entry i k * m.entry j k :=
  m.outerGram.ofFn_entry.symm.trans (ofFn_congr fun _ hi _ hj => entry_outerGram hi hj)

theorem transpose_gram (m : Matrix K) : m.gram.transpose = m.gram := by
  rw [gram_eq, transpose_ofFn]
  exact ofFn_congr fun i _ j _ => Finset.sum_congr rfl fun k _ => mul_comm _ _

theorem outerGram_eq_gram (m : Matrix K) : m.outerGram = m.transpose.gram := by
  rw [outerGram_eq, gram_eq]
  refine ofFn_congr fun i hi j hj => Finset.sum_congr rfl fun k hk => ?_
  have hk := Finset.mem_range.1 hk
  rw [entry_transpose m hk hi, entry_transpose m hk hj]

/-- Every product that is taken a shorter way is the plain one. -/
theorem products_plain (m : Matrix K) : PlainProducts m where
  transpose_transpose := m.transpose_transpose
  transposeInPlace := m.transposeInPlace_eq
  transposeMulVec v hv := ⟨_, if_pos hv, m.transposeMulVecInPlace_eq hv,
    (if_pos hv).trans (congrArg Except.ok (transpose_mulVec hv)), m.transposeMulVec_eq v⟩
  gram := m.gram_eq
  gramInPlace := m.gramInPlace_eq
  gram_symm := m.transpose_gram
  outerGram := m.outerGram_eq
  outerGramInPlace := m.outerGramInPlace_eq
  outerGram_symm := by rw [outerGram_eq_gram, transpose_gram]
  outerGram_eq := m.outerGram_eq_gram

/-- Two rows with zeros in both. -/
def trestle : Matrix ℚ := .ofFn 2 3 fun i j => (#[#[1, 2, 0], #[0, 1, -3]].getD i #[]).getD j 0

/-- What stands below the diagonal of its product is copied from above. -/
theorem products_plain_trestle :
    trestle.transposeMulVec? #[2, -1] = .ok #[2, 3, 3] ∧
      trestle.transpose.mulVec? #[2, -1] = .ok #[2, 3, 3] ∧
      trestle.gramInPlace.entry 2 1 = -3 ∧ trestle.transpose.gram.entry 1 0 = 2 := by
  have hplain := products_plain trestle
  obtain ⟨w, hw, -, hw', hsum⟩ := hplain.transposeMulVec #[2, -1] rfl
  have hvalue : w = #[2, 3, 3] := by
    rw [hsum]
    decide +kernel
  rw [hvalue] at hw hw'
  refine ⟨hw, hw', ?_, ?_⟩
  · rw [hplain.gramInPlace, hplain.gram, entry_ofFn _ (by decide) (by decide)]
    decide +kernel
  · rw [← hplain.outerGram_eq, hplain.outerGram, entry_ofFn _ (by decide) (by decide)]
    decide +kernel

end Joinery.Dense.Matrix
