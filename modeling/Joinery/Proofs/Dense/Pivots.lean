import Mathlib
import Joinery.Proofs.Dense.Elimination
import Joinery.Proofs.Dense.InPlace
/-!
# Pivots and multipliers

Over an ordered field, what elimination keeps below the diagonal is never larger than one,
and what it keeps on the diagonal of a column that is not singular is never too small to
divide by. So no quotient by zero is taken, whatever it would be (`ofMatrix_dividing`,
`solve_dividing`). Columns further right put the rows below in another order and leave
what a column has got as it is (`Permutes`).
-/

namespace Joinery

variable {K : Type} [Field K] [LinearOrder K]

/-- The operations of an ordered field, but for quotients, which are the given ones. -/
abbrev Ordered.dividing (divide : K → K → K) : Arithmetic K :=
  { Ordered.arithmetic with div := divide }

namespace Dense

open scoped Joinery.Ordered

/-! ## The largest entry -/

section Largest

variable {m : Matrix K}

/-- A scan for the largest magnitude finds it, or nothing larger than it began with. -/
theorem isGreatest_foldl_max (l : List K) (first : K) :
    IsGreatest {x | x = first ∨ ∃ v ∈ l, x = |v|} (l.foldl (fun x v => max x |v|) first) := by
  induction l generalizing first with
  | nil =>
    refine ⟨.inl rfl, ?_⟩
    rintro x (rfl | ⟨v, hv, rfl⟩)
    · exact le_rfl
    · exact absurd hv List.not_mem_nil
  | cons v rest ih =>
    obtain ⟨hmem, hmax⟩ := ih (max first |v|)
    rw [List.foldl_cons]
    refine ⟨?_, ?_⟩
    · rcases hmem with heq | ⟨w, hw, heq⟩
      · rw [heq]
        rcases max_choice first |v| with hfirst | hv
        · exact .inl hfirst
        · exact .inr ⟨v, List.mem_cons_self, hv⟩
      · exact .inr ⟨w, List.mem_cons_of_mem v hw, heq⟩
    · have hfirst := hmax (.inl rfl)
      rintro x (rfl | ⟨w, hw, rfl⟩)
      · exact (le_max_left _ _).trans hfirst
      · rcases List.mem_cons.1 hw with rfl | hw
        · exact (le_max_right _ _).trans hfirst
        · exact hmax (.inr ⟨w, hw, rfl⟩)

theorem mem_data_iff {v : K} :
    v ∈ m.data.toList ↔ ∃ i < m.rows, ∃ j < m.cols, v = m.entry i j := by
  rw [Array.mem_toList_iff, Array.mem_iff_getElem]
  constructor
  · rintro ⟨k, hk, rfl⟩
    have hlt : k < m.rows * m.cols := m.size_data ▸ hk
    have hpos : 0 < m.cols := Nat.pos_of_mul_pos_left (Nat.zero_lt_of_lt hlt)
    refine ⟨k / m.cols, (Nat.div_lt_iff_lt_mul hpos).2 hlt, k % m.cols, Nat.mod_lt _ hpos, ?_⟩
    rw [Matrix.entry, Nat.div_add_mod', getD_of_lt hk]
  · rintro ⟨i, hi, j, hj, rfl⟩
    have hk : i * m.cols + j < m.data.size := m.size_data ▸ Matrix.index_lt hi hj
    exact ⟨_, hk, (getD_of_lt hk).symm⟩

/-- What pivots are measured by: one, or the largest magnitude of an entry if that is more. -/
theorem isGreatest_max_maxAbs [IsStrictOrderedRing K] (m : Matrix K) :
    IsGreatest {x | x = 1 ∨ ∃ i < m.rows, ∃ j < m.cols, x = |m.entry i j|}
      (max m.maxAbs 1) := by
  have hscan : m.maxAbs = m.data.toList.foldl (fun x v => max x |v|) 0 := by
    simp only [Matrix.maxAbs, Ordered.max_eq, ← Array.foldl_toList]
    rfl
  obtain ⟨hmem, hmax⟩ := isGreatest_foldl_max m.data.toList 0
  rw [← hscan] at hmem hmax
  constructor
  · rcases le_total m.maxAbs 1 with hle | hle
    · exact .inl (max_eq_right hle)
    · rw [max_eq_left hle]
      rcases hmem with hzero | ⟨v, hv, heq⟩
      · rw [hzero] at hle
        exact absurd hle (not_le.2 one_pos)
      · obtain ⟨i, hi, j, hj, rfl⟩ := mem_data_iff.1 hv
        exact .inr ⟨i, hi, j, hj, heq⟩
  · rintro x (rfl | ⟨i, hi, j, hj, rfl⟩)
    · exact le_max_right _ _
    · exact le_max_of_le_left (hmax (.inr ⟨_, mem_data_iff.2 ⟨i, hi, j, hj, rfl⟩, rfl⟩))

end Largest

/-! ## Quotients -/

section Quotients

variable {divide : K → K → K} (hdivide : ∀ x y, y ≠ 0 → divide x y = x / y)
include hdivide

theorem reduceBelow_dividing {m : Matrix K} {k : Nat} (h : m.entry k k ≠ 0) :
    @Matrix.reduceBelow K (Ordered.dividing divide) m k = m.reduceBelow k := by
  have hmultipliers : (Array.ofFn fun i : Fin m.rows => divide (m.entry i k) (m.entry k k)) =
      Array.ofFn fun i : Fin m.rows => m.entry i k / m.entry k k :=
    congrArg Array.ofFn (funext fun i => hdivide _ _ h)
  -- nothing but the multipliers is a quotient
  exact congrArg (fun multipliers : Array K => Matrix.ofFn m.rows m.cols fun i j =>
    if i ≤ k ∨ j < k then m.entry i j
    else
      let c := multipliers.getD i 0
      if j = k then c
      else if c == 0 then m.entry i j
      else m.entry i j - c * m.entry k j) hmultipliers

theorem backward_dividing {f : Factors K} (y : Array K)
    (h : ∀ i < f.entries.rows, f.singular.getD i false = false → f.entries.entry i i ≠ 0) :
    @Factors.backward K (Ordered.dividing divide) f y = f.backward y := by
  refine List.foldr_ext _ _ _ fun i hi later => ?_
  split
  · rfl
  · rename_i hfree
    exact congrArg (· :: later)
      (hdivide _ _ (h i (List.mem_range.1 hi) (by simpa using hfree)))

theorem solve_dividing {f : Factors K} (b : Array K)
    (h : ∀ i < f.entries.rows, f.singular.getD i false = false → f.entries.entry i i ≠ 0) :
    @Factors.solve K (Ordered.dividing divide) f b = f.solve b :=
  congrArg List.toArray (backward_dividing hdivide (f.forward b) h)

end Quotients

/-- A pivot that is divided by is not zero. -/
theorem Matrix.pivot_ne_zero [IsStrictOrderedRing K] {m : Matrix K} {threshold : K} {k : Nat}
    (hk : k < m.rows) (hthreshold : 0 < threshold) (hlarge : ¬(m.pivot k).2 < threshold) :
    m.entry (m.pivot k).1 k ≠ 0 := by
  rw [not_lt, (pivot_spec hk).2.1] at hlarge
  exact abs_pos.1 (hthreshold.trans_le hlarge)

namespace Factors

/-! ## What the work on a column does -/

/-- Column `k` is given up, and nothing is kept below its diagonal. -/
structure GivesUp (n k : Nat) (f g : Factors K) : Prop where
  order : g.order = f.order
  entry : ∀ i < n, ∀ j < n,
    g.entries.entry i j = if j = k ∧ k < i then 0 else f.entries.entry i j

/-- Row `p` has the largest candidate. It comes to place `k`, and multiples of it are taken
from the rows below. -/
structure Reduces (n k p : Nat) (f g : Factors K) : Prop where
  le : k ≤ p
  lt : p < n
  ne_zero : f.entries.entry p k ≠ 0
  largest : ∀ i, k ≤ i → i < n → |f.entries.entry i k| ≤ |f.entries.entry p k|
  order : g.order = f.order.swapIfInBounds k p
  entry : ∀ i < n, ∀ j < n, g.entries.entry i j =
    if i ≤ k ∨ j < k then f.entries.entry (swapped k p i) j
    else if j = k then f.entries.entry (swapped k p i) k / f.entries.entry p k
    else f.entries.entry (swapped k p i) j -
      f.entries.entry (swapped k p i) k / f.entries.entry p k * f.entries.entry p j

section Steps

variable {m : Matrix K} {threshold : K} {f : Factors K} {k : Nat}

theorem Stage.reduces (h : Stage m threshold k f) (hk : k < m.rows) {p : Nat} (hle : k ≤ p)
    (hlt : p < m.rows) (hzero : f.entries.entry p k ≠ 0)
    (hlargest : ∀ i, k ≤ i → i < m.rows → |f.entries.entry i k| ≤ |f.entries.entry p k|) :
    Reduces m.rows k p f
      { f with
        entries := (f.entries.swapRows k p).reduceBelow k
        order := f.order.swapIfInBounds k p } := by
  have hswap : ∀ i j, i < m.rows → j < m.rows → (f.entries.swapRows k p).entry i j =
      f.entries.entry (swapped k p i) j := fun i j hi hj =>
    Matrix.entry_swapRows _ k p (by rwa [h.rows]) (by rwa [h.cols])
  have hfirst : swapped k p k = p := if_pos rfl
  refine ⟨hle, hlt, hzero, hlargest, rfl, fun i hi j hj => ?_⟩
  dsimp only
  rw [Matrix.entry_reduceBelow (m := f.entries.swapRows k p)
    (show i < f.entries.rows by rwa [h.rows]) (show j < f.entries.cols by rwa [h.cols]),
    hswap i j hi hj, hswap i k hi hk, hswap k k hk hk, hswap k j hk hj, hfirst]

/-- What the work on a column is, in two cases. -/
theorem Stage.eliminate_cases [IsStrictOrderedRing K] (h : Stage m threshold k f)
    (hk : k < m.rows) (hthreshold : 0 < threshold) :
    GivesUp m.rows k f (f.eliminate threshold k) ∨
      ∃ p, Reduces m.rows k p f (f.eliminate threshold k) := by
  have hk' : k < f.entries.rows := by rwa [h.rows]
  obtain ⟨hle, hvalue, hmax⟩ := Matrix.pivot_spec hk'
  unfold Factors.eliminate
  dsimp only
  rw [Ordered.isNaN_eq]
  split
  case isTrue =>
    exact .inl ⟨rfl, fun i hi j hj =>
      Matrix.entry_clearBelow (by rwa [h.rows]) (by rwa [h.cols])⟩
  case isFalse hlarge =>
    exact .inr ⟨_, h.reduces hk hle (h.rows ▸ Matrix.pivot_lt hk')
      (Matrix.pivot_ne_zero hk' hthreshold fun hlt => hlarge (.inr hlt))
      fun i hi hlt => hvalue ▸ hmax i hi (by rwa [h.rows])⟩

theorem Stage.eliminate_dividing [IsStrictOrderedRing K] {divide : K → K → K}
    (hdivide : ∀ x y, y ≠ 0 → divide x y = x / y) (h : Stage m threshold k f) (hk : k < m.rows)
    (hthreshold : 0 < threshold) :
    @Factors.eliminate K (Ordered.dividing divide) threshold f k = f.eliminate threshold k := by
  have hk' : k < f.entries.rows := by rwa [h.rows]
  by_cases hsmall : Arithmetic.isNaN (f.entries.pivot k).2 ∨ (f.entries.pivot k).2 < threshold
  · exact (if_pos hsmall).trans (if_pos hsmall).symm
  · have hpivot : (f.entries.swapRows k (f.entries.pivot k).1).entry k k ≠ 0 := by
      rw [Matrix.entry_swapRows _ k _ hk' (by rwa [h.cols]), if_pos rfl]
      exact Matrix.pivot_ne_zero hk' hthreshold fun hlt => hsmall (.inr hlt)
    refine (if_neg hsmall).trans (Eq.trans ?_ (if_neg hsmall).symm)
    exact congrArg (fun entries => { f with
      entries := entries
      order := f.order.swapIfInBounds k (f.entries.pivot k).1 })
        (reduceBelow_dividing hdivide hpivot)

end Steps

/-! ## Multipliers -/

section Multipliers

variable [IsStrictOrderedRing K] {f g : Factors K} {n k p : Nat}

/-- The multipliers of the first `k` columns are at most one. -/
def Small (n k : Nat) (f : Factors K) : Prop :=
  ∀ j < k, ∀ i, j < i → i < n → |f.entries.entry i j| ≤ 1

theorem Small.givesUp (h : Small n k f) (hk : k < n) (hg : GivesUp n k f g) :
    Small n (k + 1) g := by
  intro j hj i hji hi
  rw [hg.entry i hi j (by omega)]
  split
  case isTrue => rw [abs_zero]; exact zero_le_one
  case isFalse hold => exact h j (by omega) i hji hi

theorem Small.reduces (h : Small n k f) (hk : k < n) (hg : Reduces n k p f g) :
    Small n (k + 1) g := by
  intro j hj i hji hi
  rw [hg.entry i hi j (by omega)]
  rcases Nat.lt_or_eq_of_le (Nat.le_of_lt_succ hj) with hj | rfl
  · -- a multiplier that was there comes from another row below the diagonal
    rw [if_pos (.inr hj)]
    refine h j hj _ ?_ (swapped_lt hk hg.lt hi)
    rcases Nat.lt_or_ge i k with hik | hik
    · rwa [swapped_of_lt hg.le hik]
    · exact hj.trans_le (le_swapped hg.le hik)
  · -- a new one is divided by the largest candidate
    rw [if_neg (by omega), if_pos rfl, abs_div]
    exact div_le_one_of_le₀
      (hg.largest _ (le_swapped hg.le hji.le) (swapped_lt hk hg.lt hi)) (abs_nonneg _)

end Multipliers

/-! ## Columns that are done -/

section Done

variable {n k t : Nat} {f g g' : Factors K} {σ τ : Equiv.Perm (Fin n)}

/-- The first `k` columns of `f` stand in `g`, with the rows from place `k` on in another
order. The rows before are as they were. -/
structure Permutes (n k : Nat) (f g : Factors K) (σ : Equiv.Perm (Fin n)) : Prop where
  fixed : ∀ i : Fin n, i < k → σ i = i
  order : ∀ i : Fin n, g.order.getD i 0 = f.order.getD (σ i) 0
  column : ∀ (i : Fin n) (j : Nat), j < k → g.entries.entry i j = f.entries.entry (σ i) j
  row : ∀ i < k, ∀ j < n, g.entries.entry i j = f.entries.entry i j
  singular : ∀ j < k, g.singular.getD j false = f.singular.getD j false

theorem Permutes.refl (n k : Nat) (f : Factors K) : Permutes n k f f (Equiv.refl _) :=
  ⟨fun _ _ => rfl, fun _ => rfl, fun _ _ _ => rfl, fun _ _ _ _ => rfl, fun _ _ => rfl⟩

theorem Permutes.trans (h : Permutes n k f g σ) (h' : Permutes n k g g' τ) :
    Permutes n k f g' (τ.trans σ) where
  fixed i hi := by rw [Equiv.trans_apply, h'.fixed i hi, h.fixed i hi]
  order i := (h'.order i).trans (h.order (τ i))
  column i j hj := (h'.column i j hj).trans (h.column (τ i) j hj)
  row i hi j hj := (h'.row i hi j hj).trans (h.row i hi j hj)
  singular j hj := (h'.singular j hj).trans (h.singular j hj)

theorem val_swap {a b : Fin n} (i : Fin n) : (Equiv.swap a b i).val = swapped a b i := by
  rw [Equiv.swap_apply_def, swapped]
  simp only [Fin.ext_iff, apply_ite Fin.val]

theorem GivesUp.permutes (hg : GivesUp n t f g) (hk : k ≤ t) (ht : t < n)
    (hsingular : ∀ j < t, g.singular.getD j false = f.singular.getD j false) :
    Permutes n k f g (Equiv.refl _) where
  fixed _ _ := rfl
  order i := by rw [hg.order]; rfl
  column i j hj := (hg.entry i i.isLt j (by omega)).trans (if_neg (by omega))
  row i hi j hj := (hg.entry i (by omega) j hj).trans (if_neg (by omega))
  singular j hj := hsingular j (by omega)

theorem Reduces.permutes {p : Nat} (hg : Reduces n t p f g) (hk : k ≤ t) (ht : t < n)
    (hsize : f.order.size = n)
    (hsingular : ∀ j < t, g.singular.getD j false = f.singular.getD j false) :
    Permutes n k f g (Equiv.swap ⟨t, ht⟩ ⟨p, hg.lt⟩) where
  fixed i hi := Fin.ext (by rw [val_swap, swapped_of_lt hg.le (by omega)])
  order i := by
    rw [hg.order, val_swap]
    exact getD_swapIfInBounds (by rwa [hsize]) (hsize ▸ hg.lt) (hsize ▸ i.isLt)
  column i j hj := by rw [hg.entry i i.isLt j (by omega), if_pos (.inr (by omega)), val_swap]
  row i hi j hj := by
    rw [hg.entry i (by omega) j hj, if_pos (.inl (by omega)), swapped_of_lt hg.le (by omega)]
  singular j hj := hsingular j (by omega)

end Done

/-! ## The whole elimination -/

section Run

variable [IsStrictOrderedRing K] {m : Matrix K} {pivotThreshold : K} (hsquare : m.cols = m.rows)
  (hpivot : 0 < pivotThreshold)
include hsquare hpivot

theorem small_upTo {k : Nat} (hk : k ≤ m.rows) : Small m.rows k (upTo m pivotThreshold k) := by
  induction k with
  | zero => exact fun j hj => absurd hj (Nat.not_lt_zero j)
  | succ k ih =>
    have hk : k < m.rows := hk
    rw [upTo_succ]
    rcases (stage_upTo hsquare hpivot hk.le).eliminate_cases hk (threshold_pos hpivot)
      with hg | ⟨p, hg⟩
    · exact (ih hk.le).givesUp hk hg
    · exact (ih hk.le).reduces hk hg

/-- Later columns put rows in another order, and leave what earlier ones have got. -/
theorem permutes_upTo {k t : Nat} (hkt : k ≤ t) (ht : t ≤ m.rows) :
    ∃ σ, Permutes m.rows k (upTo m pivotThreshold k) (upTo m pivotThreshold t) σ := by
  induction t, hkt using Nat.le_induction with
  | base => exact ⟨_, .refl _ _ _⟩
  | succ t hkt ih =>
    have ht : t < m.rows := ht
    have hstage := stage_upTo hsquare hpivot ht.le
    obtain ⟨σ, hσ⟩ := ih ht.le
    have hsingular : ∀ j < t, (upTo m pivotThreshold (t + 1)).singular.getD j false =
        (upTo m pivotThreshold t).singular.getD j false := fun j hj => by
      rw [upTo_succ, singular_eliminate_ne _ hj.ne']
    rw [upTo_succ] at hsingular ⊢
    rcases hstage.eliminate_cases ht (threshold_pos hpivot) with hg | ⟨p, hg⟩
    · exact ⟨_, hσ.trans (hg.permutes hkt ht hsingular)⟩
    · exact ⟨_, hσ.trans (hg.permutes hkt ht hstage.size_order hsingular)⟩

/-- No quotient by zero goes into the factors. -/
theorem ofMatrix_dividing {divide : K → K → K} (hdivide : ∀ x y, y ≠ 0 → divide x y = x / y) :
    @ofMatrix K (Ordered.dividing divide) m pivotThreshold = ofMatrix m pivotThreshold := by
  refine foldl_range_snapshots (upTo m pivotThreshold) rfl (fun t ht => ?_) (upTo_rows m _)
  rw [upTo_succ, ← (stage_upTo hsquare hpivot ht.le).eliminate_dividing hdivide ht
    (threshold_pos hpivot), ← Ordered.max_eq]
  rfl

end Run

/-- What stands in the factors of a square matrix: multipliers that are at most one, none of
a singular column, and pivots that are not below the least one where a column is not
singular. -/
structure WithinBounds (m : Matrix K) (least : K) (f : Factors K) : Prop where
  multiplier : ∀ i < m.rows, ∀ j < i, |f.entries.entry i j| ≤ 1
  cleared : ∀ j, f.singular.getD j false = true → ∀ i, j < i → i < m.rows →
    f.entries.entry i j = 0
  pivot : ∀ j < m.rows, f.singular.getD j false = false → least ≤ |f.entries.entry j j|

variable [IsStrictOrderedRing K]

theorem withinBounds_ofMatrix {m : Matrix K} {pivotThreshold : K} (hsquare : m.cols = m.rows)
    (hpivot : 0 < pivotThreshold) :
    WithinBounds m (pivotThreshold * max m.maxAbs 1) (ofMatrix m pivotThreshold) := by
  have hstage := stage_ofMatrix hsquare hpivot
  have hsmall := small_upTo hsquare hpivot le_rfl
  rw [upTo_rows] at hsmall
  exact ⟨fun i hi j hj => hsmall j (hj.trans hi) i hj hi,
    fun j hj i hji hi => hstage.cleared j (hji.trans hi) hj i hji hi, hstage.usable⟩

/-- Elimination keeps its factors within bounds, and never divides by a small pivot: whatever
a quotient by zero may be, in place or not, factors and solutions are the same. What a
column has got when it is done, later ones put in another order and never change. -/
theorem elimination_bounded (m : Matrix K) (hsquare : m.rows = m.cols) (pivotThreshold : K)
    (hpivot : 0 < pivotThreshold) :
    ∃ f largest, ofMatrix? m pivotThreshold = .ok f ∧
      IsGreatest {x | x = 1 ∨ ∃ i < m.rows, ∃ j < m.cols, x = |m.entry i j|} largest ∧
      0 < pivotThreshold * largest ∧ WithinBounds m (pivotThreshold * largest) f ∧
      (∀ divide : K → K → K, (∀ x y, y ≠ 0 → divide x y = x / y) →
        @ofMatrix? K (Ordered.dividing divide) m pivotThreshold = .ok f ∧
        @ofMatrixInPlace K (Ordered.dividing divide) m pivotThreshold = f ∧
        ∀ b, b.size = m.rows →
          @solve? K (Ordered.dividing divide) f b = .ok (f.solve b)) ∧
      upTo m pivotThreshold m.rows = f ∧
      ∀ k t, k ≤ t → t ≤ m.rows →
        ∃ σ, Permutes m.rows k (upTo m pivotThreshold k) (upTo m pivotThreshold t) σ := by
  have hbounded := withinBounds_ofMatrix hsquare.symm hpivot
  refine ⟨_, _, if_pos hsquare, isGreatest_max_maxAbs m, threshold_pos hpivot, hbounded, ?_,
    upTo_rows m _, fun k t hkt ht => permutes_upTo hsquare.symm hpivot hkt ht⟩
  intro divide hdivide
  have hfactors := ofMatrix_dividing hsquare.symm hpivot hdivide
  refine ⟨(if_pos hsquare).trans (congrArg Except.ok hfactors),
    (@ofMatrixInPlace_eq K (Ordered.dividing divide) m hsquare.symm pivotThreshold).trans hfactors,
    fun b hb => ?_⟩
  refine (if_pos (hb.trans (rows_ofMatrix m _).symm)).trans (congrArg Except.ok ?_)
  refine solve_dividing hdivide b fun i hi hfree => ?_
  rw [rows_ofMatrix] at hi
  exact abs_pos.1 ((threshold_pos hpivot).trans_le (hbounded.pivot i hi hfree))

/-- Four rows, of which the last has the largest candidate for the third column. The second
column is the first once more. -/
def ladder : Matrix ℚ :=
  .ofFn 4 4 fun i j =>
    (#[#[1, 1, 0, 1], #[2, 2, 1, 0], #[4, 4, 2, 1], #[-2, -2, 3, 1]].getD i #[]).getD j 0

/-- The multiplier of the last row goes up with it and stays what it was. -/
theorem elimination_bounded_ladder :
    ∃ f, ofMatrix? ladder (1 / 1000) = .ok f ∧
      f.singular = #[false, true, false, false] ∧ f.order = #[2, 1, 3, 0] ∧
      |f.entries.entry 3 2| ≤ 1 ∧ f.entries.entry 2 1 = 0 ∧ 1 / 250 ≤ |f.entries.entry 3 3| ∧
      @ofMatrix? ℚ (Ordered.dividing fun x y => if y = 0 then x + 1 else x / y)
        ladder (1 / 1000) = .ok f ∧
      f.entries.entry 2 0 = -1 / 2 ∧
      ∃ i : Fin 4, 0 < i ∧ (upTo ladder (1 / 1000) 1).entries.entry i 0 = -1 / 2 := by
  obtain ⟨f, largest, hf, hlargest, -, hbounds, hdivide, hlast, hpermutes⟩ :=
    elimination_bounded ladder rfl (1 / 1000) (by norm_num)
  have hfactors : f.singular = #[false, true, false, false] ∧ f.order = #[2, 1, 3, 0] ∧
      f.entries.entry 2 0 = -1 / 2 := by
    cases hf
    decide +kernel
  have hfour : (4 : ℚ) ≤ largest :=
    hlargest.2 (.inr ⟨2, by decide, 0, by decide, by simp [ladder, Matrix.entry_ofFn]⟩)
  have hpivot := hbounds.pivot 3 (by decide) (by rw [hfactors.1]; rfl)
  obtain ⟨σ, hσ⟩ : ∃ σ : Equiv.Perm (Fin 4),
      Permutes 4 1 (upTo ladder (1 / 1000) 1) (upTo ladder (1 / 1000) 4) σ :=
    hpermutes 1 4 (by decide) le_rfl
  have hfirst : σ 2 ≠ 0 := fun h =>
    absurd (σ.injective (h.trans (hσ.fixed 0 one_pos).symm)) (by decide)
  have hcolumn := hσ.column 2 0 one_pos
  rw [show upTo ladder (1 / 1000) 4 = f from hlast] at hcolumn
  exact ⟨f, hf, hfactors.1, hfactors.2.1, hbounds.multiplier 3 (by decide) 2 (by decide),
    hbounds.cleared 1 (by rw [hfactors.1]; rfl) 2 (by decide) (by decide), by linarith,
    (hdivide _ fun x y hy => if_neg hy).1, hfactors.2.2, σ 2, Fin.pos_iff_ne_zero.2 hfirst,
    hcolumn.symm.trans hfactors.2.2⟩

end Factors

end Dense

end Joinery
