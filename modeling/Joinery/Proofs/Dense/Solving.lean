import Mathlib
import Joinery.Proofs.Dense.Elimination
/-!
# Solutions by elimination

Going forward through the rows and back through the unknowns solves the two triangles one
after the other. A singular column has no say in either: its multipliers are zero, and so
is its unknown. Every other row of the matrix then holds of the solution exactly.
-/

namespace Joinery.Dense

/-! ## Arrays and lists that are built entry by entry -/

section Built

variable {α : Type}

/-- The array of `n` entries each of which is made from those before it. -/
def built (g : Array α → Nat → α) (n : Nat) : Array α :=
  (List.range n).foldl (fun y i => y.push (g y i)) #[]

theorem built_succ (g : Array α → Nat → α) (n : Nat) :
    built g (n + 1) = (built g n).push (g (built g n) n) := by
  rw [built, List.range_succ, List.foldl_append]
  rfl

@[simp]
theorem size_built (g : Array α → Nat → α) (n : Nat) : (built g n).size = n := by
  induction n with
  | zero => rfl
  | succ n ih => rw [built_succ, Array.size_push, ih]

theorem getD_built [Zero α] (g : Array α → Nat → α) {n i : Nat} (hi : i < n) :
    (built g n).getD i 0 = g (built g i) i := by
  induction n with
  | zero => exact absurd hi (Nat.not_lt_zero i)
  | succ n ih =>
    rw [built_succ, getD_of_lt (by simpa using hi), Array.getElem_push]
    split
    case isTrue hlt =>
      rw [size_built] at hlt
      rw [← ih hlt, getD_of_lt (by simpa using hlt)]
    case isFalse hge =>
      have heq : i = n := by
        rw [size_built] at hge
        omega
      rw [heq]

end Built

open scoped Joinery.Ordered

variable {K : Type} [Field K] [LinearOrder K]

/-- The first `n` entries of an array as a column. -/
def column (n : Nat) (a : Array K) : Fin n → K := fun j => a.getD j 0

theorem column_ofFn {n : Nat} (x : Fin n → K) : column n (Array.ofFn x) = x :=
  funext fun j => getD_ofFn x j.isLt

theorem foldl_zipIdx_sub (h : Nat → K) (l : List K) (first : K) (start : Nat) :
    (l.zipIdx start).foldl (fun sum x => sum - h x.2 * x.1) first =
      first - ∑ t ∈ Finset.range l.length, h (start + t) * l.getD t 0 := by
  induction l generalizing first start with
  | nil => simp
  | cons x rest ih =>
    rw [List.zipIdx_cons, List.foldl_cons, ih, List.length_cons, Finset.sum_range_succ', sub_sub,
      add_comm (h start * x)]
    simp [Nat.add_assoc, Nat.add_comm 1]

theorem sum_range_ite_le {i n : Nat} (g : Nat → K) :
    (∑ j ∈ Finset.range n, if i ≤ j then g j else 0) = ∑ j ∈ Finset.Ico i n, g j := by
  rw [← Finset.sum_filter]
  refine Finset.sum_congr (Finset.ext fun j => ?_) fun _ _ => rfl
  simp [and_comm]

/-- The product of two triangles with a column, row by row. -/
theorem sum_triangles {E : Nat → Nat → K} {x : Nat → K} {i n : Nat} (hi : i < n) :
    ∑ j ∈ Finset.range n, triangles E n i j * x j =
      (∑ c ∈ Finset.range i, E i c * ∑ j ∈ Finset.Ico c n, E c j * x j) +
        ∑ j ∈ Finset.Ico i n, E i j * x j := by
  have hlower : ∑ j ∈ Finset.range n,
      (∑ c ∈ Finset.range i, if c ≤ j then E i c * E c j else 0) * x j =
        ∑ c ∈ Finset.range i, E i c * ∑ j ∈ Finset.Ico c n, E c j * x j := by
    simp only [Finset.sum_mul]
    rw [Finset.sum_comm]
    refine Finset.sum_congr rfl fun c _ => ?_
    rw [Finset.mul_sum, ← sum_range_ite_le]
    refine Finset.sum_congr rfl fun j _ => ?_
    split
    · exact mul_assoc _ _ _
    · exact zero_mul _
  have hupper : ∑ j ∈ Finset.range n, (if i ≤ j then E i j else 0) * x j =
      ∑ j ∈ Finset.Ico i n, E i j * x j := by
    rw [← sum_range_ite_le]
    refine Finset.sum_congr rfl fun j _ => ?_
    split
    · rfl
    · exact zero_mul _
  unfold triangles
  rw [Nat.min_eq_left hi.le]
  simp only [add_mul, Finset.sum_add_distrib]
  rw [hlower, hupper]

namespace Factors

variable {f : Factors K} {b : Array K} {i : Nat}

/-- Going forward undoes the multipliers. -/
theorem getD_forward (b : Array K) (hi : i < f.entries.rows) :
    (∑ c ∈ Finset.range i, f.entries.entry i c * (f.forward b).getD c 0) +
      (f.forward b).getD i 0 = b.getD (f.order.getD i 0) 0 := by
  have hforward : f.forward b = built (fun y i => (List.range i).foldl
      (fun sum j => sum - f.entries.entry i j * y.getD j 0) (b.getD (f.order.getD i 0) 0))
        f.entries.rows := rfl
  rw [hforward, getD_built _ hi, Ordered.foldl_sub]
  have hsum : ∀ c ∈ Finset.range i, ∀ g : Array K → Nat → K,
      (built g f.entries.rows).getD c 0 = (built g i).getD c 0 := by
    intro c hc g
    have hlt := Finset.mem_range.1 hc
    rw [getD_built g hlt, getD_built g (hlt.trans hi)]
  rw [Finset.sum_congr rfl fun c hc => by rw [hsum c hc]]
  exact add_sub_cancel _ _

/-- Going back solves the triangle above, but for singular places. -/
theorem sum_backward (b : Array K) (hi : i < f.entries.rows)
    (hfree : f.singular.getD i false = false) (hpivot : f.entries.entry i i ≠ 0) :
    ∑ j ∈ Finset.Ico i f.entries.rows, f.entries.entry i j * (f.solve b).getD j 0 =
      (f.forward b).getD i 0 := by
  have hrange : (List.range f.entries.rows)[i]? = some i := List.getElem?_range hi
  have hlength : (f.backward (f.forward b)).length = f.entries.rows := f.size_solve b
  have hread : ∀ j, (f.solve b).getD j 0 = (f.backward (f.forward b)).getD j 0 := by
    intro j
    rw [solve, Array.getD_eq_getD_getElem?, List.getElem?_toArray, List.getD_eq_getElem?_getD]
  have hentry : (f.solve b).getD i 0 = ((f.forward b).getD i 0 -
      ∑ j ∈ Finset.Ico (i + 1) f.entries.rows, f.entries.entry i j * (f.solve b).getD j 0) /
        f.entries.entry i i := by
    rw [hread, List.getD_eq_getElem?_getD]
    conv_lhs => rw [backward, getElem?_foldr_cons _ hrange]
    rw [hfree]
    have hback : (List.range f.entries.rows).foldr (fun i later =>
        (if f.singular.getD i false then 0
         else
           (later.zipIdx (i + 1)).foldl (fun sum x => sum - f.entries.entry i x.2 * x.1)
             ((f.forward b).getD i 0) / f.entries.entry i i) :: later) [] =
          f.backward (f.forward b) := rfl
    rw [hback, foldl_zipIdx_sub, List.length_drop, hlength, Finset.sum_Ico_eq_sum_range]
    simp [List.getD_eq_getElem?_getD, hread]
  rw [Finset.sum_eq_sum_Ico_succ_bot hi, hentry, mul_div_cancel₀ _ hpivot]
  exact sub_add_cancel _ _

/-! ## What a solution solves -/

variable [IsStrictOrderedRing K] {m : Matrix K} {pivotThreshold : K}

/-- A row whose place is not singular holds of the solution. -/
theorem solve_row (hsquare : m.cols = m.rows) (hpivot : 0 < pivotThreshold) (b : Array K)
    (hi : i < m.rows) (hfree : (ofMatrix m pivotThreshold).singular.getD i false = false) :
    ∑ j ∈ Finset.range m.rows, m.entry ((ofMatrix m pivotThreshold).order.getD i 0) j *
        ((ofMatrix m pivotThreshold).solve b).getD j 0 =
      b.getD ((ofMatrix m pivotThreshold).order.getD i 0) 0 := by
  have hstage := stage_ofMatrix hsquare hpivot
  have hthreshold := threshold_pos (m := m) hpivot
  revert hfree
  generalize ofMatrix m pivotThreshold = f at hstage ⊢
  intro hfree
  have hrows := hstage.rows
  have hback : ∀ c < m.rows, f.singular.getD c false = false →
      ∑ j ∈ Finset.Ico c m.rows, f.entries.entry c j * (f.solve b).getD j 0 =
        (f.forward b).getD c 0 := by
    intro c hc hfree
    have husable := hstage.usable c hc hfree
    rw [← hrows] at hc ⊢
    exact sum_backward b hc hfree (abs_pos.1 (lt_of_lt_of_le hthreshold husable))
  -- a singular unknown is zero, so the product may be taken for the matrix in every column
  have hproduct : ∀ j ∈ Finset.range m.rows,
      m.entry (f.order.getD i 0) j * (f.solve b).getD j 0 =
        triangles f.entries.entry m.rows i j * (f.solve b).getD j 0 := by
    intro j hj
    have hlt := Finset.mem_range.1 hj
    cases hsingular : f.singular.getD j false with
    | false => rw [hstage.product i hi j hlt hsingular]
    | true => rw [solve_singular (by rwa [hrows]) hsingular, mul_zero, mul_zero]
  -- a singular column has no multipliers, so it does not matter what its row would give
  have hlower : ∀ c ∈ Finset.range i, f.entries.entry i c *
      ∑ j ∈ Finset.Ico c m.rows, f.entries.entry c j * (f.solve b).getD j 0 =
        f.entries.entry i c * (f.forward b).getD c 0 := by
    intro c hc
    have hlt := Finset.mem_range.1 hc
    cases hsingular : f.singular.getD c false with
    | false => rw [hback c (hlt.trans hi) hsingular]
    | true => rw [hstage.cleared c (hlt.trans hi) hsingular i hlt hi, zero_mul, zero_mul]
  rw [Finset.sum_congr rfl hproduct, sum_triangles hi, Finset.sum_congr rfl hlower,
    hback i hi hfree]
  exact getD_forward b (by rwa [hrows])

/-- Without singular columns every row holds of the solution. -/
theorem solve_eq (hsquare : m.cols = m.rows) (hpivot : 0 < pivotThreshold)
    (hregular : (ofMatrix m pivotThreshold).singularCount = 0) (b : Array K) (hi : i < m.rows) :
    ∑ j ∈ Finset.range m.rows, m.entry i j * ((ofMatrix m pivotThreshold).solve b).getD j 0 =
      b.getD i 0 := by
  have hstage := stage_ofMatrix hsquare hpivot
  have hmem : i ∈ (ofMatrix m pivotThreshold).order.toList :=
    hstage.order.mem_iff.2 (List.mem_range.2 hi)
  obtain ⟨place, hplace, heq⟩ := List.getElem_of_mem hmem
  have horder : (ofMatrix m pivotThreshold).order.getD place 0 = i := by
    rw [getD_of_lt (by simpa using hplace)]
    simpa using heq
  have hlt : place < m.rows := by
    rw [← hstage.size_order]
    simpa using hplace
  have hfree : (ofMatrix m pivotThreshold).singular.getD place false = false := by
    have hnone := Array.count_eq_zero.1 hregular
    rw [Array.getD, dif_pos (by rwa [hstage.size_singular])]
    exact Bool.eq_false_iff.2 fun htrue => hnone (htrue ▸ Array.getElem_mem _)
  have hrow := solve_row hsquare hpivot b hlt hfree
  rw [horder] at hrow
  exact hrow

/-- The product of a square matrix with a column, as a linear map. -/
def productMap (m : Matrix K) (n : Nat) : (Fin n → K) →ₗ[K] (Fin n → K) where
  toFun x i := ∑ j : Fin n, m.entry i j * x j
  map_add' x y := by
    funext i
    simp only [Pi.add_apply, mul_add, Finset.sum_add_distrib]
  map_smul' c x := by
    funext i
    simp only [Pi.smul_apply, smul_eq_mul, RingHom.id_apply, Finset.mul_sum]
    exact Finset.sum_congr rfl fun j _ => mul_left_comm _ _ _

omit [IsStrictOrderedRing K] in
/-- A product with a square matrix is the product with its columns. -/
theorem mulVec_eq_iff_productMap (hsquare : m.cols = m.rows) {x b : Array K}
    (hx : x.size = m.rows) (hb : b.size = m.rows) :
    m.mulVec x = b ↔ productMap m m.rows (column m.rows x) = column m.rows b := by
  have hentry : ∀ i : Fin m.rows,
      (m.mulVec x).getD i 0 = productMap m m.rows (column m.rows x) i := by
    intro i
    rw [Matrix.getD_mulVec (hx.trans hsquare.symm) i.isLt, hsquare, Finset.sum_range]
    rfl
  constructor
  · rintro rfl
    exact funext fun i => (hentry i).symm
  · intro h
    refine ext_getD (n := m.rows) (by simp) hb fun i hi => ?_
    rw [hentry ⟨i, hi⟩, h]
    rfl

/-- Without singular columns a matrix takes different columns to different ones. -/
theorem productMap_injective {n : Nat} (hrows : m.rows = n) (hcols : m.cols = n)
    (hpivot : 0 < pivotThreshold) (hregular : (ofMatrix m pivotThreshold).singularCount = 0) :
    Function.Injective (productMap m n) := by
  subst hrows
  -- every column is reached, by the solution for it
  apply LinearMap.injective_iff_surjective.2
  intro y
  refine ⟨fun j => ((ofMatrix m pivotThreshold).solve (Array.ofFn y)).getD j 0, ?_⟩
  funext i
  have hrow := solve_eq hcols hpivot hregular (Array.ofFn y) i.isLt
  rw [Finset.sum_range, getD_ofFn y i.isLt] at hrow
  exact hrow

end Factors

end Joinery.Dense
