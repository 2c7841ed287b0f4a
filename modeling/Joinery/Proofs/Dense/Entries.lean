import Joinery.Dense.Matrix
/-!
# Entry by entry

Arrays and matrices are compared by what is read at each place, with zero beyond the
end. A matrix is the one that is built from its entries, and its rows are built from
them too.
-/

namespace Joinery.Dense

variable {α : Type}

section Arrays

variable [Zero α] {a b : Array α} {n j : Nat}

theorem getD_of_lt (h : j < a.size) : a.getD j 0 = a[j] := by simp [Array.getD, h]

/-- Arrays of one size are equal if they read the same at every place. -/
theorem ext_getD (ha : a.size = n) (hb : b.size = n) (h : ∀ j, j < n → a.getD j 0 = b.getD j 0) :
    a = b := by
  apply Array.ext
  · rw [ha, hb]
  · intro j hj hj'
    rw [← getD_of_lt hj, ← getD_of_lt hj']
    exact h j (ha ▸ hj)

theorem getD_ofFn (f : Fin n → α) (hj : j < n) : (Array.ofFn f).getD j 0 = f ⟨j, hj⟩ := by
  rw [getD_of_lt (by simpa using hj)]
  simp

theorem getD_setIfInBounds (hj : j < a.size) (k : Nat) (x : α) :
    (a.setIfInBounds k x).getD j 0 = if k = j then x else a.getD j 0 := by
  rw [getD_of_lt (by simpa using hj), getD_of_lt hj, Array.getElem_setIfInBounds hj]

/-- An array is the one that is built from its entries. -/
theorem ofFn_getD (ha : a.size = n) : Array.ofFn (fun j : Fin n => a.getD j 0) = a := by
  refine ext_getD (n := n) (by simp) ha ?_
  intro j hj
  rw [getD_ofFn _ hj]

end Arrays

namespace Matrix

/-- No two places have one index. -/
theorem index_eq_iff {cols i j k : Nat} (hj : j < cols) :
    i * cols + j = k ↔ k / cols = i ∧ k % cols = j := by
  constructor
  · rintro rfl
    constructor
    · rw [Nat.mul_comm, Nat.mul_add_div (by omega), Nat.div_eq_of_lt hj, Nat.add_zero]
    · rw [Nat.mul_comm, Nat.mul_add_mod, Nat.mod_eq_of_lt hj]
  · rintro ⟨rfl, rfl⟩
    exact Nat.div_add_mod' k cols

theorem ofFn_congr {rows cols : Nat} {f g : Nat → Nat → α}
    (h : ∀ i < rows, ∀ j < cols, f i j = g i j) : ofFn rows cols f = ofFn rows cols g := by
  unfold ofFn
  congr 1
  refine congrArg Array.ofFn (funext fun k => ?_)
  have hpos : 0 < cols := Nat.pos_of_mul_pos_left (Nat.zero_lt_of_lt k.isLt)
  exact h _ ((Nat.div_lt_iff_lt_mul hpos).2 k.isLt) _ (Nat.mod_lt _ hpos)

theorem row_ofFn {rows cols i : Nat} (f : Nat → Nat → α) (hi : i < rows) :
    (ofFn rows cols f).row i = Array.ofFn fun j : Fin cols => f i j := by
  have hsize : ((ofFn rows cols f).row i).size = cols := size_row _ hi
  apply Array.ext
  · simp [hsize]
  · intro j hj hj'
    obtain ⟨hdiv, hmod⟩ := (index_eq_iff (i := i) (hsize ▸ hj : j < cols)).1 rfl
    simp [row, ofFn, hdiv, hmod]

theorem getD_rows (m : Matrix α) {i : Nat} (hi : i < m.rows) :
    (Array.ofFn fun i : Fin m.rows => m.row i).getD i #[] = m.row i := by
  simp [Array.getD, hi]

variable [Arithmetic α]

/-- A matrix is the one that is built from its entries. -/
theorem ofFn_entry (m : Matrix α) : Matrix.ofFn m.rows m.cols m.entry = m := by
  obtain ⟨rows, cols, data, hsize⟩ := m
  unfold Matrix.ofFn
  congr 1
  apply Array.ext
  · simp [hsize]
  · intro k hk hk'
    simp [Matrix.entry, Nat.div_add_mod', hk']

/-- Matrices of one size are equal if their entries are. -/
theorem ext_entry {m m' : Matrix α} (hrows : m.rows = m'.rows) (hcols : m.cols = m'.cols)
    (h : ∀ i j, i < m.rows → j < m.cols → m.entry i j = m'.entry i j) : m = m' := by
  rw [← m.ofFn_entry, ← m'.ofFn_entry, ← hrows, ← hcols]
  exact ofFn_congr fun i hi j hj => h i j hi hj

theorem swapRows_self (m : Matrix α) (i : Nat) : m.swapRows i i = m := by
  refine (ofFn_congr fun k _ l _ => ?_).trans m.ofFn_entry
  by_cases hk : k = i <;> simp [hk]

end Matrix

end Joinery.Dense
