import Mathlib
import Joinery.Proofs.Dense.Blank
import Joinery.Proofs.Dense.Products
/-!
# Elimination over an ordered field

Where nothing is rounded, each step of elimination leaves the product of the two
triangles as it is, but for the column of a pivot that is not usable, which is given up
(`Factors.Stage`). So every row of a matrix whose place is not singular holds of the
solution, and where no place is singular the solution is the only one.
-/

namespace Joinery.Dense

open scoped Joinery.Ordered

variable {K : Type} [Field K] [LinearOrder K]

/-! ## The product of two triangles -/

section Product

variable {E E' : Nat → Nat → K} {i j k n p : Nat}

/-- The entry of the product of two triangles kept in one matrix, of which the first `k`
columns are done: multipliers are below the diagonal, all else from the diagonal on or
not yet done. -/
def triangles (E : Nat → Nat → K) (k i j : Nat) : K :=
  (∑ c ∈ Finset.range (min i k), if c ≤ j then E i c * E c j else 0) +
    if min i k ≤ j then E i j else 0

/-- Where row `i` goes when rows `a` and `b` change places. -/
def swapped (a b i : Nat) : Nat := if i = a then b else if i = b then a else i

theorem swapped_of_lt (hp : k ≤ p) (hi : i < k) : swapped k p i = i := by
  unfold swapped
  rw [if_neg (by omega), if_neg (by omega)]

theorem le_swapped (hp : k ≤ p) (hi : k ≤ i) : k ≤ swapped k p i := by
  unfold swapped
  split
  · exact hp
  · split <;> omega

theorem swapped_lt (hk : k < n) (hp : p < n) (hi : i < n) : swapped k p i < n := by
  unfold swapped
  split
  · exact hp
  · split <;> assumption

theorem min_swapped (hp : k ≤ p) : min (swapped k p i) k = min i k := by
  rcases Nat.lt_or_ge i k with hi | hi
  · rw [swapped_of_lt hp hi]
  · rw [Nat.min_eq_right hi, Nat.min_eq_right (le_swapped hp hi)]

theorem getD_swapIfInBounds {v : Array Nat} {a b : Nat} (ha : a < v.size) (hb : b < v.size)
    (hi : i < v.size) : (v.swapIfInBounds a b).getD i 0 = v.getD (swapped a b i) 0 := by
  rw [getD_of_lt (by simpa using hi), getD_of_lt (swapped_lt ha hb hi),
    Array.getElem_swapIfInBounds]
  simp only [ha, hb, and_true, swapped]
  split
  · simp [*]
  · split <;> simp [*]

theorem swapIfInBounds_perm {v : Array Nat} {a b : Nat} (ha : a < v.size) (hb : b < v.size) :
    (v.swapIfInBounds a b).toList.Perm v.toList := by
  rw [Array.swapIfInBounds, dif_pos ha, dif_pos hb]
  exact Array.perm_iff_toList_perm.1 (Array.swap_perm ha hb)

/-- Rows that are not done change places, and their products with them. -/
theorem triangles_swapped (hp : k ≤ p) (hk : k < n) (hi : i < n) (hj : j < n)
    (h : ∀ i j, i < n → j < n → E' i j = E (swapped k p i) j) :
    triangles E' k i j = triangles E k (swapped k p i) j := by
  unfold triangles
  rw [min_swapped hp, h i j hi hj]
  congr 1
  refine Finset.sum_congr rfl fun c hc => ?_
  have hlt : c < k := lt_of_lt_of_le (Finset.mem_range.1 hc) (Nat.min_le_right i k)
  rw [h i c hi (hlt.trans hk), h c j (hlt.trans hk) hj, swapped_of_lt hp hlt]

/-- A column that is given up changes no product in another column. -/
theorem triangles_cleared (hk : k < n) (hi : i < n) (hj : j < n) (hne : j ≠ k)
    (h : ∀ i j, i < n → j < n → E' i j = if j = k ∧ k < i then 0 else E i j) :
    triangles E' (k + 1) i j = triangles E k i j := by
  have hsame : ∀ i, i < n → E' i j = E i j := fun i hi => by
    rw [h i j hi hj, if_neg fun hjk => hne hjk.1]
  have hsum : ∀ c < min i k, E' i c * E' c j = E i c * E c j := by
    intro c hc
    rw [h i c hi (by omega), hsame c (by omega), if_neg (by omega)]
  unfold triangles
  rw [hsame i hi]
  rcases Nat.lt_or_ge k i with hki | hki
  · -- the multiplier of the new column is zero
    have hzero : E' i k = 0 := by rw [h i k hi hk, if_pos ⟨rfl, hki⟩]
    rw [Nat.min_eq_right hki, Nat.min_eq_right hki.le, Finset.sum_range_succ, hzero, zero_mul,
      ite_self, add_zero]
    congr 1
    · exact Finset.sum_congr rfl fun c hc => by
        rw [hsum c (by have := Finset.mem_range.1 hc; omega)]
    · simp only [show k + 1 ≤ j ↔ k ≤ j by omega]
  · rw [Nat.min_eq_left (by omega), Nat.min_eq_left hki]
    congr 1
    exact Finset.sum_congr rfl fun c hc => by
      rw [hsum c (by have := Finset.mem_range.1 hc; omega)]

/-- Taking multiples of a row from those below keeps all products. -/
theorem triangles_reduced (hk : k < n) (hi : i < n) (hj : j < n) (hpivot : E k k ≠ 0)
    (h : ∀ i j, i < n → j < n → E' i j =
      if i ≤ k ∨ j < k then E i j
      else if j = k then E i k / E k k else E i j - E i k / E k k * E k j) :
    triangles E' (k + 1) i j = triangles E k i j := by
  have habove : ∀ i ≤ k, ∀ j < n, E' i j = E i j := fun i hik j hj => by
    rw [h i j (by omega) hj, if_pos (.inl hik)]
  have hsum : ∀ c < min i k, E' i c * E' c j = E i c * E c j := by
    intro c hc
    rw [h i c hi (by omega), if_pos (.inr (by omega)), habove c (by omega) j hj]
  have hdone : (∑ c ∈ Finset.range (min i k), if c ≤ j then E' i c * E' c j else 0) =
      ∑ c ∈ Finset.range (min i k), if c ≤ j then E i c * E c j else 0 :=
    Finset.sum_congr rfl fun c hc => by rw [hsum c (Finset.mem_range.1 hc)]
  rcases Nat.lt_or_ge k i with hki | hki
  · have hmultiplier : E' i k = E i k / E k k := by
      rw [h i k hi hk, if_neg (by omega), if_pos rfl]
    rw [Nat.min_eq_right hki.le] at hdone
    unfold triangles
    rw [Nat.min_eq_right hki, Nat.min_eq_right hki.le, Finset.sum_range_succ, hdone, add_assoc,
      hmultiplier, habove k le_rfl j hj]
    congr 1
    rcases Nat.lt_trichotomy j k with hjk | rfl | hjk
    · simp [Nat.not_le.2 hjk, Nat.not_le.2 (Nat.lt_succ_of_lt hjk)]
    · simp [div_mul_cancel₀ _ hpivot]
    · have hlt : ¬(i ≤ k ∨ j < k) := by omega
      simp [hjk.le, Nat.succ_le_of_lt hjk, h i j hi hj, hlt, hjk.ne']
  · unfold triangles
    rw [Nat.min_eq_left (by omega), habove i hki j hj]
    rw [Nat.min_eq_left hki] at hdone ⊢
    rw [hdone]

end Product

/-! ## One column -/

namespace Matrix

variable {m : Matrix K} {k : Nat}

/-- The candidate that a scan for the largest value keeps of two. -/
def larger (g : Nat → K) (best : Nat × K) (i : Nat) : Nat × K :=
  if best.2 < g i then (i, g i) else best

/-- A scan ends with a place that it has looked at, and no other one has a larger value. -/
theorem foldl_larger (g : Nat → K) (l : List Nat) (first : Nat × K) (h : first.2 = g first.1) :
    (l.foldl (larger g) first).2 = g (l.foldl (larger g) first).1 ∧
      ((l.foldl (larger g) first).1 = first.1 ∨ (l.foldl (larger g) first).1 ∈ l) ∧
      first.2 ≤ (l.foldl (larger g) first).2 ∧ ∀ i ∈ l, g i ≤ (l.foldl (larger g) first).2 := by
  induction l generalizing first with
  | nil => exact ⟨h, .inl rfl, le_rfl, by simp⟩
  | cons i rest ih =>
    rw [List.foldl_cons]
    by_cases hlt : first.2 < g i
    · rw [larger, if_pos hlt]
      obtain ⟨hvalue, hplace, hle, hmax⟩ := ih (i, g i) rfl
      refine ⟨hvalue, .inr ?_, hlt.le.trans hle, List.forall_mem_cons.2 ⟨hle, hmax⟩⟩
      rcases hplace with hplace | hplace
      · exact List.mem_cons.2 (.inl hplace)
      · exact List.mem_cons_of_mem i hplace
    · rw [larger, if_neg hlt]
      obtain ⟨hvalue, hplace, hle, hmax⟩ := ih first h
      refine ⟨hvalue, hplace.imp_right (List.mem_cons_of_mem i), hle, ?_⟩
      exact List.forall_mem_cons.2 ⟨(not_lt.1 hlt).trans hle, hmax⟩

/-- The pivot is the largest candidate, at one of the places from the diagonal down. -/
theorem pivot_spec (hk : k < m.rows) :
    k ≤ (m.pivot k).1 ∧ (m.pivot k).2 = |m.entry (m.pivot k).1 k| ∧
      ∀ i, k ≤ i → i < m.rows → |m.entry i k| ≤ (m.pivot k).2 := by
  obtain ⟨hvalue, hplace, hle, hmax⟩ := foldl_larger (fun i => |m.entry i k|)
    (List.range' (k + 1) (m.rows - (k + 1))) (k, |m.entry k k|) rfl
  refine ⟨?_, hvalue, fun i hi hlt => ?_⟩
  · rcases hplace with hplace | hplace
    · exact hplace.ge
    · exact Nat.le_of_succ_le (List.mem_range'_1.1 hplace).1
  · rcases Nat.lt_or_eq_of_le hi with hi | rfl
    · exact hmax i (List.mem_range'_1.2 (by omega))
    · exact hle

theorem entry_clearBelow {i j : Nat} (hi : i < m.rows) (hj : j < m.cols) :
    (m.clearBelow k).entry i j = if j = k ∧ k < i then 0 else m.entry i j :=
  entry_ofFn _ hi hj

theorem entry_reduceBelow {i j : Nat} (hi : i < m.rows) (hj : j < m.cols) :
    (m.reduceBelow k).entry i j =
      if i ≤ k ∨ j < k then m.entry i j
      else if j = k then m.entry i k / m.entry k k
      else m.entry i j - m.entry i k / m.entry k k * m.entry k j := by
  have hmultiplier : (Array.ofFn fun i : Fin m.rows => m.entry i k / m.entry k k).getD i 0 =
      m.entry i k / m.entry k k := getD_ofFn _ hi
  rw [reduceBelow, entry_ofFn _ hi hj, hmultiplier]
  split
  · rfl
  · split
    · rfl
    · dsimp only
      split
      case isTrue hzero => rw [Ordered.beq_iff.1 hzero, zero_mul, sub_zero]
      case isFalse => rfl

end Matrix

/-! ## All columns -/

namespace Factors

variable {m : Matrix K} {f : Factors K} {k : Nat} {threshold : K}

/-- What the first `k` steps of elimination make of a matrix. -/
structure Stage (m : Matrix K) (threshold : K) (k : Nat) (f : Factors K) : Prop where
  rows : f.entries.rows = m.rows
  cols : f.entries.cols = m.rows
  order : f.order.toList.Perm (List.range m.rows)
  size_singular : f.singular.size = m.rows
  /-- No column is singular before it is looked at. -/
  ahead : ∀ j, k ≤ j → f.singular.getD j false = false
  /-- The pivots are usable where a column is not singular. -/
  usable : ∀ j < k, f.singular.getD j false = false → threshold ≤ |f.entries.entry j j|
  /-- Nothing is taken from other rows for a singular column. -/
  cleared : ∀ j < k, f.singular.getD j false = true → ∀ i, j < i → i < m.rows →
    f.entries.entry i j = 0
  /-- The product of the triangles is the matrix in the new order, but for what was given
  up with singular columns. -/
  product : ∀ i < m.rows, ∀ j < m.rows, f.singular.getD j false = false →
    triangles f.entries.entry k i j = m.entry (f.order.getD i 0) j

theorem Stage.size_order (h : Stage m threshold k f) : f.order.size = m.rows := by
  rw [← Array.length_toList, h.order.length_eq, List.length_range]

theorem Stage.clear (h : Stage m threshold k f) (hk : k < m.rows) :
    Stage m threshold (k + 1)
      { f with
        entries := f.entries.clearBelow k
        singular := f.singular.setIfInBounds k true } := by
  have hentry : ∀ i j, i < m.rows → j < m.rows → (f.entries.clearBelow k).entry i j =
      if j = k ∧ k < i then 0 else f.entries.entry i j := fun i j hi hj =>
    Matrix.entry_clearBelow (by rwa [h.rows]) (by rwa [h.cols])
  have hself : (f.singular.setIfInBounds k true).getD k false = true := by
    simp [Array.getD, h.size_singular, hk]
  have hother : ∀ {j}, j ≠ k →
      (f.singular.setIfInBounds k true).getD j false = f.singular.getD j false := by
    intro j hne
    rw [Array.getD_eq_getD_getElem?, Array.getD_eq_getD_getElem?,
      Array.getElem?_setIfInBounds_ne hne.symm]
  have hbefore : ∀ {j}, (f.singular.setIfInBounds k true).getD j false = false →
      j ≠ k ∧ f.singular.getD j false = false := by
    intro j hfree
    by_cases hne : j = k
    · rw [hne, hself] at hfree
      cases hfree
    · exact ⟨hne, hother hne ▸ hfree⟩
  refine ⟨h.rows, h.cols, h.order, by simp [h.size_singular], ?_, ?_, ?_, ?_⟩
  · intro j hj
    rw [hother (by omega)]
    exact h.ahead j (by omega)
  · intro j hj hfree
    obtain ⟨hne, hfree⟩ := hbefore hfree
    dsimp only
    rw [hentry j j (by omega) (by omega), if_neg (by omega)]
    exact h.usable j (by omega) hfree
  · intro j hj hsingular i hi hlt
    dsimp only
    rw [hentry i j hlt (by omega)]
    by_cases hne : j = k
    · exact if_pos ⟨hne, hne ▸ hi⟩
    · rw [hother hne] at hsingular
      rw [if_neg fun hjk => hne hjk.1]
      exact h.cleared j (by omega) hsingular i hi hlt
  · intro i hi j hj hfree
    obtain ⟨hne, hfree⟩ := hbefore hfree
    rw [triangles_cleared hk hi hj hne hentry]
    exact h.product i hi j hj hfree

theorem Stage.reduce [IsStrictOrderedRing K] (h : Stage m threshold k f) (hk : k < m.rows)
    {p : Nat} (hp : k ≤ p) (hlt : p < m.rows) (hthreshold : 0 < threshold)
    (hpivot : threshold ≤ |f.entries.entry p k|) :
    Stage m threshold (k + 1)
      { f with
        entries := (f.entries.swapRows k p).reduceBelow k
        order := f.order.swapIfInBounds k p } := by
  have hsize := h.size_order
  have hswap : ∀ i j, i < m.rows → j < m.rows → (f.entries.swapRows k p).entry i j =
      f.entries.entry (swapped k p i) j := fun i j hi hj =>
    Matrix.entry_swapRows _ k p (by rwa [h.rows]) (by rwa [h.cols])
  have hentry : ∀ i j, i < m.rows → j < m.rows →
      ((f.entries.swapRows k p).reduceBelow k).entry i j = _ := fun i j hi hj =>
    Matrix.entry_reduceBelow (show i < f.entries.rows by rwa [h.rows])
      (show j < f.entries.cols by rwa [h.cols])
  have hdiagonal : (f.entries.swapRows k p).entry k k = f.entries.entry p k := by
    rw [hswap k k hk hk, swapped, if_pos rfl]
  refine ⟨h.rows, h.cols, ?_, h.size_singular, fun j hj => h.ahead j (by omega), ?_, ?_, ?_⟩
  · exact (swapIfInBounds_perm (by rwa [hsize]) (by rwa [hsize])).trans h.order
  · intro j hj hfree
    dsimp only
    rw [hentry j j (by omega) (by omega), if_pos (.inl (by omega))]
    rcases Nat.lt_or_eq_of_le (Nat.le_of_lt_succ hj) with hj | rfl
    · rw [hswap j j (by omega) (by omega), swapped_of_lt hp hj]
      exact h.usable j hj hfree
    · rw [hdiagonal]
      exact hpivot
  · intro j hj hsingular i hi hlt'
    have hne : j ≠ k := by
      rintro rfl
      rw [h.ahead j le_rfl] at hsingular
      cases hsingular
    have hjk : j < k := by omega
    dsimp only
    rw [hentry i j hlt' (by omega), if_pos (.inr hjk), hswap i j hlt' (by omega)]
    refine h.cleared j hjk hsingular _ ?_ (swapped_lt hk hlt hlt')
    rcases Nat.lt_or_ge i k with hik | hik
    · rwa [swapped_of_lt hp hik]
    · exact hjk.trans_le (le_swapped hp hik)
  · intro i hi j hj hfree
    have hnonzero : (f.entries.swapRows k p).entry k k ≠ 0 := by
      rw [hdiagonal]
      exact abs_pos.1 (lt_of_lt_of_le hthreshold hpivot)
    dsimp only
    rw [triangles_reduced hk hi hj hnonzero hentry, triangles_swapped hp hk hi hj hswap,
      h.product _ (swapped_lt hk hlt hi) j hj hfree,
      getD_swapIfInBounds (by rwa [hsize]) (by rwa [hsize]) (by rwa [hsize])]

theorem stage_first (hsquare : m.cols = m.rows) (threshold : K) :
    Stage m threshold 0 ⟨m, Array.range m.rows, Array.replicate m.rows false⟩ where
  rows := rfl
  cols := hsquare
  order := by simp
  size_singular := by simp
  ahead j _ := by simp [Array.getD]
  usable j hj := absurd hj (Nat.not_lt_zero j)
  cleared j hj := absurd hj (Nat.not_lt_zero j)
  product i hi j hj _ := by simp [triangles, Array.getD, hi]

variable [IsStrictOrderedRing K]

/-- One step of elimination leads from stage to stage. -/
theorem Stage.eliminate (h : Stage m threshold k f) (hk : k < m.rows) (hthreshold : 0 < threshold) :
    Stage m threshold (k + 1) (f.eliminate threshold k) := by
  have hk' : k < f.entries.rows := by rwa [h.rows]
  obtain ⟨hle, hvalue, -⟩ := Matrix.pivot_spec hk'
  unfold Factors.eliminate
  dsimp only
  rw [Ordered.isNaN_eq]
  split
  case isTrue => exact h.clear hk
  case isFalse hlarge =>
    have hpivot : threshold ≤ (f.entries.pivot k).2 := not_lt.1 fun hlt => hlarge (.inr hlt)
    rw [hvalue] at hpivot
    exact h.reduce hk hle (h.rows ▸ Matrix.pivot_lt hk') hthreshold hpivot

/-- The factors after the first `k` columns. -/
def upTo (m : Matrix K) (pivotThreshold : K) (k : Nat) : Factors K :=
  (List.range k).foldl (eliminate (pivotThreshold * max m.maxAbs 1))
    ⟨m, Array.range m.rows, Array.replicate m.rows false⟩

omit [IsStrictOrderedRing K] in
theorem upTo_succ (m : Matrix K) (pivotThreshold : K) (k : Nat) : upTo m pivotThreshold (k + 1) =
    (upTo m pivotThreshold k).eliminate (pivotThreshold * max m.maxAbs 1) k := by
  rw [upTo, List.range_succ, List.foldl_append]
  rfl

omit [IsStrictOrderedRing K] in
theorem upTo_rows (m : Matrix K) (pivotThreshold : K) :
    upTo m pivotThreshold m.rows = ofMatrix m pivotThreshold := by
  rw [upTo, ← Ordered.max_eq]
  rfl

theorem threshold_pos {pivotThreshold : K} (hpivot : 0 < pivotThreshold) :
    0 < pivotThreshold * max m.maxAbs 1 :=
  mul_pos hpivot (lt_of_lt_of_le one_pos (le_max_right _ _))

theorem stage_upTo {pivotThreshold : K} (hsquare : m.cols = m.rows) (hpivot : 0 < pivotThreshold)
    (hk : k ≤ m.rows) :
    Stage m (pivotThreshold * max m.maxAbs 1) k (upTo m pivotThreshold k) := by
  induction k with
  | zero => exact stage_first hsquare _
  | succ k ih =>
    rw [upTo_succ]
    exact (ih (by omega)).eliminate (by omega) (threshold_pos hpivot)

/-- The factors of a square matrix are at their last stage. -/
theorem stage_ofMatrix {pivotThreshold : K} (hsquare : m.cols = m.rows)
    (hpivot : 0 < pivotThreshold) :
    Stage m (pivotThreshold * max m.maxAbs 1) m.rows (ofMatrix m pivotThreshold) := by
  rw [← upTo_rows]
  exact stage_upTo hsquare hpivot le_rfl

/-! ### Columns that are given up -/

omit [IsStrictOrderedRing K] in
theorem singular_eliminate_ne (f : Factors K) {j : Nat} (h : k ≠ j) :
    (f.eliminate threshold k).singular.getD j false = f.singular.getD j false := by
  unfold Factors.eliminate
  dsimp only
  split
  · rw [Array.getD_eq_getD_getElem?, Array.getD_eq_getD_getElem?, Array.getElem?_setIfInBounds_ne h]
  · rfl

omit [IsStrictOrderedRing K] in
/-- Whether a column is singular is settled when it is looked at. -/
theorem singular_upTo (m : Matrix K) (pivotThreshold : K) {j : Nat} (h : j < k) :
    (upTo m pivotThreshold k).singular.getD j false =
      (upTo m pivotThreshold (j + 1)).singular.getD j false := by
  induction k, h using Nat.le_induction with
  | base => rfl
  | succ k hle ih => rw [upTo_succ, singular_eliminate_ne _ (by omega), ih]

/-- A column is given up exactly if all its candidates are too small when it is looked at. -/
theorem singular_ofMatrix_iff {pivotThreshold : K} (hsquare : m.cols = m.rows)
    (hpivot : 0 < pivotThreshold) (hk : k < m.rows) :
    (ofMatrix m pivotThreshold).singular.getD k false = true ↔
      ∀ i < m.rows, k ≤ i →
        |(upTo m pivotThreshold k).entries.entry i k| < pivotThreshold * max m.maxAbs 1 := by
  have hstage := stage_upTo hsquare hpivot hk.le
  have hrows := hstage.rows
  obtain ⟨hle, hvalue, hmax⟩ := Matrix.pivot_spec (hrows ▸ hk)
  rw [← upTo_rows, singular_upTo m pivotThreshold hk, upTo_succ, Factors.eliminate,
    Ordered.isNaN_eq]
  split
  case isTrue hsmall =>
    have hset : ((upTo m pivotThreshold k).singular.setIfInBounds k true).getD k false = true := by
      simp [Array.getD, hstage.size_singular, hk]
    refine iff_of_true hset fun i hi hki => ?_
    exact (hmax i hki (hrows ▸ hi)).trans_lt (hsmall.resolve_left Bool.false_ne_true)
  case isFalse hlarge =>
    refine iff_of_false (by simp [hstage.ahead k le_rfl]) fun hall => hlarge (.inr ?_)
    rw [hvalue]
    exact hall _ (hrows ▸ Matrix.pivot_lt (hrows ▸ hk)) hle

end Factors

end Joinery.Dense
