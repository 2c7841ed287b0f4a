import Mathlib
import Joinery.Proofs.Dense.Solution
/-!
# Systems that have solutions

A column that is given up costs more than its unknown. The row that stands at its place is
not looked at again, although it may be needed for a column further right. So not every
system that has a solution gets one: a right-hand side is met exactly if some solution is
zero at all singular columns (`mulVec_solve_iff`), and all that can be met are met exactly
if the columns that are kept are as many as the rank (`meets_consistent_iff`).
-/

namespace Joinery.Dense

open scoped Joinery.Ordered

variable {K : Type} [Field K] [LinearOrder K]

/-- How many columns of a matrix tell different things. -/
noncomputable def Matrix.rank (m : Matrix K) : Nat :=
  (Matrix.of fun (i : Fin m.rows) (j : Fin m.cols) => m.entry i j).rank

namespace Factors

variable {m : Matrix K} {f : Factors K} {n : Nat}

/-! ## The columns that are kept -/

/-- The columns of `n` that factors do not give up. -/
abbrev Kept (f : Factors K) (n : Nat) : Type := {k : Fin n // f.singular.getD k false = false}

omit [Field K] [LinearOrder K] in
/-- Each column is kept or counted as singular. -/
theorem card_kept (hsize : f.singular.size = n) :
    Fintype.card (f.Kept n) + f.singularCount = n := by
  have hkept : Fintype.card (f.Kept n) =
      ((Finset.range n).filter fun k => f.singular.getD k false = false).card := by
    rw [Fintype.card_subtype, Finset.card_filter, Finset.card_filter,
      Fin.sum_univ_eq_sum_range fun k => if f.singular.getD k false = false then 1 else 0]
  have hsplit := Finset.card_filter_add_card_filter_not
    (s := Finset.range n) (fun k => f.singular.getD k false = false)
  simp only [Bool.not_eq_false, Finset.card_range] at hsplit
  rw [hkept, singularCount, count_flags hsize, hsplit]

/-- The columns that are kept, put together with the given factors. -/
noncomputable def keptMap (m : Matrix K) (f : Factors K) (n : Nat) : (f.Kept n → K) →ₗ[K] (Fin n → K) :=
  productMap m n ∘ₗ Function.ExtendByZero.linearMap K Subtype.val

/-- A column that is zero at all singular places is made of those that are kept. -/
theorem keptMap_restrict {x : Fin n → K}
    (h : ∀ k : Fin n, f.singular.getD k false = true → x k = 0) :
    keptMap m f n (fun k => x k) = productMap m n x := by
  refine congrArg (productMap m n) (funext fun j => ?_)
  show Function.extend Subtype.val (fun k : f.Kept n => x k) 0 j = x j
  by_cases hj : f.singular.getD j false = false
  · exact Subtype.val_injective.extend_apply (fun k : f.Kept n => x k) 0 ⟨j, hj⟩
  · rw [Function.extend_apply' _ _ _ (by rintro ⟨k, rfl⟩; exact hj k.2), h j (by simpa using hj)]
    rfl

/-- The solution for a right-hand side is made of the columns that are kept. -/
theorem keptMap_solve (m : Matrix K) (pivotThreshold : K) (b : Array K) :
    keptMap m (ofMatrix m pivotThreshold) m.rows
        (fun k => column m.rows ((ofMatrix m pivotThreshold).solve b) k) =
      productMap m m.rows (column m.rows ((ofMatrix m pivotThreshold).solve b)) :=
  keptMap_restrict fun _ hk => solve_singular (by simp) hk

theorem rank_eq_finrank (hrows : m.rows = n) (hcols : m.cols = n) :
    m.rank = Module.finrank K (LinearMap.range (productMap m n)) := by
  obtain ⟨rows, cols, data, hsize⟩ := m
  obtain rfl : rows = n := hrows
  obtain rfl : cols = rows := hcols
  rfl

section Solving

variable [IsStrictOrderedRing K] {pivotThreshold : K} (hsquare : m.cols = m.rows)
  (hpivot : 0 < pivotThreshold)
include hsquare hpivot

/-- Whatever the rows at places that are kept should come to, the columns that are kept can
be put together so. No two ways do the same. -/
theorem kept_bijective : ∃ place : (ofMatrix m pivotThreshold).Kept m.rows → Fin m.rows,
    (∀ k, (place k).val = (ofMatrix m pivotThreshold).order.getD k.1 0) ∧
      Function.Bijective fun x => keptMap m (ofMatrix m pivotThreshold) m.rows x ∘ place := by
  have hstage := stage_ofMatrix hsquare hpivot
  let place : (ofMatrix m pivotThreshold).Kept m.rows → Fin m.rows :=
    fun k => ⟨_, hstage.order_lt k.1.isLt⟩
  have hplace : Function.Injective place := fun k k' h =>
    Subtype.ext (Fin.ext (hstage.order_inj k.1.isLt k'.1.isLt (congrArg Fin.val h)))
  have hsurjective : Function.Surjective
      (LinearMap.funLeft K K place ∘ₗ keptMap m (ofMatrix m pivotThreshold) m.rows) := by
    intro y
    refine ⟨fun k => column m.rows ((ofMatrix m pivotThreshold).solve
      (Array.ofFn (Function.extend place y 0))) k, funext fun k => ?_⟩
    have hrow := solve_row hsquare hpivot (Array.ofFn (Function.extend place y 0)) k.1.isLt k.2
    rw [Finset.sum_range, getD_ofFn _ (hstage.order_lt k.1.isLt)] at hrow
    rw [LinearMap.comp_apply, keptMap_solve]
    exact hrow.trans (hplace.extend_apply y 0 k)
  exact ⟨place, fun k => rfl, LinearMap.injective_iff_surjective.2 hsurjective, hsurjective⟩

theorem keptMap_injective :
    Function.Injective (keptMap m (ofMatrix m pivotThreshold) m.rows) := by
  obtain ⟨place, -, hbijective⟩ := kept_bijective hsquare hpivot
  exact fun x y h => hbijective.1 (congrArg (· ∘ place) h)

/-- What the columns that are kept can be put together to is met. -/
theorem productMap_solve {b : Array K} {x : (ofMatrix m pivotThreshold).Kept m.rows → K}
    (hx : keptMap m (ofMatrix m pivotThreshold) m.rows x = column m.rows b) :
    productMap m m.rows (column m.rows ((ofMatrix m pivotThreshold).solve b)) =
      column m.rows b := by
  obtain ⟨place, hplace, hbijective⟩ := kept_bijective hsquare hpivot
  rw [← keptMap_solve, ← hx]
  refine congrArg _ (hbijective.1 (funext fun k => ?_))
  have hrow := solve_row hsquare hpivot b k.1.isLt k.2
  rw [Finset.sum_range] at hrow
  show keptMap _ _ _ _ (place k) = keptMap _ _ _ _ (place k)
  rw [keptMap_solve, hx]
  show ∑ j : Fin m.rows, m.entry (place k) j * _ = b.getD (place k) 0
  rw [hplace]
  exact hrow

/-- A right-hand side is met exactly if it has a solution that is zero at all singular
columns. -/
theorem mulVec_solve_iff {b : Array K} (hb : b.size = m.rows) :
    m.mulVec ((ofMatrix m pivotThreshold).solve b) = b ↔
      ∃ y : Array K, y.size = m.rows ∧
        (∀ k, (ofMatrix m pivotThreshold).singular.getD k false = true → y.getD k 0 = 0) ∧
          m.mulVec y = b := by
  have hsize := (stage_ofMatrix hsquare hpivot).size_singular
  constructor
  · intro h
    refine ⟨_, by simp, fun k hk => solve_singular ?_ hk, h⟩
    by_contra hge
    rw [rows_ofMatrix, ← hsize] at hge
    simp [Array.getD, hge] at hk
  · rintro ⟨y, hy, hzero, h⟩
    rw [mulVec_eq_iff_productMap hsquare hy hb] at h
    rw [mulVec_eq_iff_productMap hsquare (by simp) hb]
    exact productMap_solve hsquare hpivot ((keptMap_restrict fun k hk => hzero k hk).trans h)

theorem finrank_keptMap :
    Module.finrank K (LinearMap.range (keptMap m (ofMatrix m pivotThreshold) m.rows)) +
      (ofMatrix m pivotThreshold).singularCount = m.rows := by
  rw [LinearMap.finrank_range_of_inj (keptMap_injective hsquare hpivot),
    Module.finrank_fintype_fun_eq_card]
  exact card_kept (stage_ofMatrix hsquare hpivot).size_singular

/-- Every system that has a solution gets one exactly if the columns that are kept are as many
as the rank. -/
theorem meets_consistent_iff :
    (∀ y b : Array K, y.size = m.rows → m.mulVec y = b →
        m.mulVec ((ofMatrix m pivotThreshold).solve b) = b) ↔
      m.rank + (ofMatrix m pivotThreshold).singularCount = m.rows := by
  have hrank : m.rank = Module.finrank K (LinearMap.range (productMap m m.rows)) :=
    rank_eq_finrank rfl hsquare
  have hle : LinearMap.range (keptMap m (ofMatrix m pivotThreshold) m.rows) ≤
      LinearMap.range (productMap m m.rows) := LinearMap.range_comp_le_range _ _
  have hkept := finrank_keptMap hsquare hpivot
  rw [hrank]
  constructor
  · intro h
    have hge : LinearMap.range (productMap m m.rows) ≤
        LinearMap.range (keptMap m (ofMatrix m pivotThreshold) m.rows) := by
      rintro _ ⟨x, rfl⟩
      have hmet : m.mulVec (Array.ofFn x) = Array.ofFn (productMap m m.rows x) := by
        rw [mulVec_eq_iff_productMap hsquare (by simp) (by simp), column_ofFn, column_ofFn]
      have hsolved := h _ _ (by simp) hmet
      rw [mulVec_eq_iff_productMap hsquare (by simp) (by simp), column_ofFn, ← keptMap_solve]
        at hsolved
      exact ⟨_, hsolved⟩
    rw [← le_antisymm hle hge]
    exact hkept
  · intro h y b hy hb
    have hsize : b.size = m.rows := by rw [← hb, Matrix.size_mulVec]
    have heq := Submodule.eq_of_le_of_finrank_eq hle (by omega)
    rw [mulVec_eq_iff_productMap hsquare hy hsize] at hb
    obtain ⟨x, hx⟩ : column m.rows b ∈
        LinearMap.range (keptMap m (ofMatrix m pivotThreshold) m.rows) := by
      rw [heq, ← hb]
      exact LinearMap.mem_range_self _ _
    rw [mulVec_eq_iff_productMap hsquare (by simp) hsize]
    exact productMap_solve hsquare hpivot hx

/-- A column is kept for what no other one tells, so the columns that are given up make up for
the rank at least. -/
theorem le_rank_add : m.rows ≤ m.rank + (ofMatrix m pivotThreshold).singularCount := by
  have hle : LinearMap.range (keptMap m (ofMatrix m pivotThreshold) m.rows) ≤
      LinearMap.range (productMap m m.rows) := LinearMap.range_comp_le_range _ _
  rw [rank_eq_finrank rfl hsquare]
  exact (finrank_keptMap hsquare hpivot).ge.trans
    (Nat.add_le_add_right (Submodule.finrank_mono hle) _)

end Solving

/-- What the factors of a square matrix make of the systems with it. -/
structure Meets (m : Matrix K) (f : Factors K) : Prop where
  /-- A right-hand side is met exactly if some solution is zero at all singular columns. -/
  met : ∀ b : Array K, b.size = m.rows → ∃ x, f.solve? b = .ok x ∧
    (m.mulVec x = b ↔ ∃ y : Array K, y.size = m.rows ∧
      (∀ k, f.singular.getD k false = true → y.getD k 0 = 0) ∧ m.mulVec y = b)
  /-- All that can be met are met exactly if the columns that are kept are as many as the
  rank. -/
  all : (∀ y b x : Array K, y.size = m.rows → m.mulVec y = b → f.solve? b = .ok x →
    m.mulVec x = b) ↔ m.rank + f.singularCount = m.rows

theorem meets_ofMatrix [IsStrictOrderedRing K] {pivotThreshold : K} (hsquare : m.cols = m.rows)
    (hpivot : 0 < pivotThreshold) : (ofMatrix m pivotThreshold).Meets m := by
  have hsolve : ∀ b : Array K, b.size = m.rows → (ofMatrix m pivotThreshold).solve? b =
      .ok ((ofMatrix m pivotThreshold).solve b) := fun b hb => if_pos (by rw [hb, rows_ofMatrix])
  refine ⟨fun b hb => ⟨_, hsolve b hb, mulVec_solve_iff hsquare hpivot hb⟩, ?_⟩
  refine Iff.trans ?_ (meets_consistent_iff hsquare hpivot)
  constructor
  · intro h y b hy hb
    exact h y b _ hy hb (hsolve b (by rw [← hb, Matrix.size_mulVec]))
  · intro h y b x hy hb hx
    rw [hsolve b (by rw [← hb, Matrix.size_mulVec])] at hx
    cases hx
    exact h y b hy hb

/-! ## Columns that are given up -/

/-- The columns that are given up have only zeros for a pivot. -/
def OnlyZeros (m : Matrix K) (pivotThreshold : K) : Prop :=
  ∀ k < m.rows, (ofMatrix m pivotThreshold).singular.getD k false = true →
    ∀ i < m.rows, k ≤ i → (upTo m pivotThreshold k).entries.entry i k = 0

/-- One equation, in the last of two unknowns. -/
def lopsided : Matrix ℚ := .ofFn 2 2 fun i j => if i = 0 ∧ j = 1 then 1 else 0

/-- Five rows of rank three. -/
def redundant : Matrix ℚ := .ofFn 5 4 fun i j =>
  (#[#[1, 1, 2, 0], #[0, 1, 2, 2]].getD i #[0, 0, 0, 1]).getD j 0

/-- Columns may be given up for zeros only, and the system has a solution, but an equation
that a later column needs is lost with one of them. Normal equations are no exception. -/
theorem onlyZeros_unmet :
    (OnlyZeros lopsided (1 / 10 ^ 12) ∧ lopsided.mulVec #[0, 1] = #[1, 0] ∧
      (ofMatrix lopsided (1 / 10 ^ 12)).solve #[1, 0] = #[0, 0] ∧
      lopsided.mulVec #[0, 0] ≠ #[1, 0]) ∧
    (OnlyZeros redundant.gram (1 / 10 ^ 12) ∧
      redundant.gram.mulVec #[2 / 3, -2 / 3, 0, 1 / 3] = redundant.transposeMulVec #[0, 0, 1, 0, 0] ∧
      (ofMatrix redundant.gram (1 / 10 ^ 12)).solve (redundant.transposeMulVec #[0, 0, 1, 0, 0]) =
        #[-1, 1 / 2, 0, 0] ∧
      redundant.gram.mulVec #[-1, 1 / 2, 0, 0] ≠ redundant.transposeMulVec #[0, 0, 1, 0, 0]) := by
  unfold OnlyZeros
  decide +kernel

/-! ## Normal equations -/

section Normal

variable [IsStrictOrderedRing K]

omit [IsStrictOrderedRing K] in
theorem of_gram (m : Matrix K) : Matrix.of (fun i j : Fin m.cols => m.gram.entry i j) =
    (Matrix.of fun (i : Fin m.rows) (j : Fin m.cols) => m.entry i j).transpose *
      Matrix.of fun (i : Fin m.rows) (j : Fin m.cols) => m.entry i j := by
  ext i j
  rw [Matrix.of_apply, Matrix.entry_gram i.isLt j.isLt, Finset.sum_range]
  rfl

theorem rank_gram (m : Matrix K) : m.gram.rank = m.rank := by
  show (Matrix.of fun i j : Fin m.cols => m.gram.entry i j).rank = _
  rw [of_gram, Matrix.rank_transpose_mul_self, Matrix.rank]

/-- Normal equations always have a solution. -/
theorem exists_gram_mulVec (m : Matrix K) (target : Array K) :
    ∃ y : Array K, y.size = m.cols ∧ m.gram.mulVec y = m.transposeMulVec target := by
  have hle : LinearMap.range (productMap m.gram m.cols) ≤ LinearMap.range
      (Matrix.of fun (i : Fin m.rows) (j : Fin m.cols) => m.entry i j).transpose.mulVecLin := by
    have hproduct : productMap m.gram m.cols =
        (Matrix.of fun i j : Fin m.cols => m.gram.entry i j).mulVecLin := rfl
    rw [hproduct, of_gram, Matrix.mulVecLin_mul]
    exact LinearMap.range_comp_le_range _ _
  have hrank : Module.finrank K (LinearMap.range (productMap m.gram m.cols)) =
      Module.finrank K (LinearMap.range
        (Matrix.of fun (i : Fin m.rows) (j : Fin m.cols) => m.entry i j).transpose.mulVecLin) :=
    (rank_gram m).trans (Matrix.rank_transpose _).symm
  have hmem : column m.cols (m.transposeMulVec target) ∈
      LinearMap.range (productMap m.gram m.cols) := by
    rw [Submodule.eq_of_le_of_finrank_eq hle hrank]
    refine ⟨column m.rows target, funext fun j => ?_⟩
    show ∑ i : Fin m.rows, m.entry i j * target.getD i 0 = (m.transposeMulVec target).getD j 0
    rw [Matrix.getD_transposeMulVec target j.isLt, Finset.sum_range]
    exact Finset.sum_congr rfl fun i _ => mul_comm _ _
  obtain ⟨x, hx⟩ := hmem
  refine ⟨Array.ofFn x, by simp, ?_⟩
  rw [mulVec_eq_iff_productMap (m := m.gram) rfl (by simp; rfl) (by simp; rfl)]
  exact (congrArg _ (column_ofFn x)).trans hx

/-- All normal equations with a matrix hold of the solutions found for them exactly if the
columns that are kept are as many as the rank. -/
theorem meets_normal_iff (m : Matrix K) {pivotThreshold : K} (hpivot : 0 < pivotThreshold) :
    (∀ target : Array K, target.size = m.rows → m.gram.mulVec
        ((ofMatrix m.gram pivotThreshold).solve (m.transposeMulVec target)) =
          m.transposeMulVec target) ↔
      m.rank + (ofMatrix m.gram pivotThreshold).singularCount = m.cols := by
  rw [← rank_gram]
  refine Iff.trans ?_ (meets_consistent_iff (m := m.gram) rfl hpivot)
  constructor
  · rintro h y _ hy rfl
    rw [Matrix.gram_mulVec hy]
    exact h _ (by simp)
  · intro h target _
    obtain ⟨y, hy, hmet⟩ := exists_gram_mulVec m target
    exact h y _ hy hmet

end Normal

end Factors

end Joinery.Dense
