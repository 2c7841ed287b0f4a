import Mathlib
import Joinery.Proofs.Dense.Products
import Joinery.Proofs.Linkage.Poses
import Joinery.Proofs.Space.Euclid
/-!
# Pulling two members apart

The slopes of a separation are a pull along the way from one member to the other: the
coordinates of the one against it, those of the other along it (`pull`). A state that is
moved along such a row has the two members moved on the line through them, so their
separation changes by the move, once for each of them that a state places (`freed`). No
other member moves, and none turns.
-/

namespace Joinery

open Joinery.Dense

namespace Linkage

variable {L : Linkage ℝ} {s s' : Array ℝ} {i i' m : Nat} {d : Displacement ℝ} {q : ℝ}

/-- One for a member that a state places, else nothing. -/
noncomputable def freed (L : Linkage ℝ) (i : Nat) : ℝ := if L.layout.isPinned i then 0 else 1

/-- The row that moves one member against a displacement and another along it. -/
noncomputable def pull (L : Linkage ℝ) (i i' : Nat) (d : Displacement ℝ) : Array ℝ :=
  Array.ofFn fun j : Fin L.size => L.along i (-d) j + L.along i' d j

@[simp]
theorem size_pull (L : Linkage ℝ) (i i' : Nat) (d : Displacement ℝ) :
    (L.pull i i' d).size = L.size := by
  simp [pull]

/-! ## Along a member -/

theorem along_of_not_places {j : Nat} (h : ¬L.layout.Places i j) : L.along i d j = 0 := by
  rw [along, Layout.coordinate?_of_not_places h]

theorem along_offset {k r : Nat} (hk : L.layout.offset? i = some k) (hr : r < 3) :
    L.along i d (k + r) = d.toList.getD r 0 := by
  simp [along, Layout.coordinate?, hk, hr]

/-- A sum over what lies along a member has a term for each of its coordinates. -/
theorem Regular.sum_along (h : L.Regular) {k : Nat} (hk : L.layout.offset? i = some k)
    (d : Displacement ℝ) (g : Nat → ℝ) :
    ∑ j ∈ Finset.range L.size, L.along i d j * g j =
      d.x * g k + d.y * g (k + 1) + d.z * g (k + 2) := by
  have hle := h.offset_add_le hk
  have hstride := L.layout.three_le_stride
  have hstretch : Finset.Ico k (k + 3) ⊆ Finset.range L.size := fun j hj =>
    Finset.mem_range.2 (by have := Finset.mem_Ico.1 hj; omega)
  have hothers : ∀ j ∈ Finset.range L.size, j ∉ Finset.Ico k (k + 3) →
      L.along i d j * g j = 0 := by
    intro j _ hj
    rw [along_of_not_places, zero_mul]
    rintro ⟨k', hk', hrange⟩
    rw [hk] at hk'
    cases hk'
    exact hj (Finset.mem_Ico.2 hrange)
  rw [← Finset.sum_subset hstretch hothers, Finset.sum_Ico_eq_sum_range, Nat.add_sub_cancel_left,
    Finset.sum_range_succ, Finset.sum_range_succ, Finset.sum_range_one, along_offset hk (by omega),
    along_offset hk (by omega), along_offset hk (by omega)]
  rfl

theorem along_of_pinned (hk : L.layout.offset? i = none) (j : Nat) : L.along i d j = 0 := by
  refine along_of_not_places ?_
  rintro ⟨k, hk', -⟩
  cases hk.symm.trans hk'

theorem freed_nonneg (L : Linkage ℝ) (i : Nat) : 0 ≤ L.freed i := by
  unfold freed
  split <;> norm_num

theorem freed_eq_one {k : Nat} (hk : L.layout.offset? i = some k) : L.freed i = 1 := by
  simp [freed, Layout.isPinned, hk]

theorem freed_eq_zero (hk : L.layout.offset? i = none) : L.freed i = 0 := by
  simp [freed, Layout.isPinned, hk]

/-- Of two members neither moves, or one at least does. -/
theorem freed_cases (L : Linkage ℝ) (i i' : Nat) :
    L.freed i + L.freed i' = 0 ∨ 1 ≤ L.freed i + L.freed i' := by
  unfold freed
  split <;> split <;> norm_num

/-- What lies along one member does not lie along another. -/
theorem Regular.along_other (h : L.Regular) {k r : Nat} (hk : L.layout.offset? i = some k)
    (hr : r < L.layout.stride) (hne : i ≠ m) : L.along m d (k + r) = 0 := by
  refine along_of_not_places fun hplaces => hne (h.owner_unique ?_ hplaces.owns)
  exact Layout.owns_iff.2 ⟨k, hk, Nat.le_add_right k r, by omega⟩

/-! ## The length of a pull -/

theorem getD_pull {j : Nat} (hj : j < L.size) :
    (L.pull i i' d).getD j 0 = L.along i (-d) j + L.along i' d j := Dense.getD_ofFn _ hj

theorem Regular.sum_sq_along (h : L.Regular) (m : Nat) (d : Displacement ℝ) :
    ∑ j ∈ Finset.range L.size, L.along m d j * L.along m d j = L.freed m * d.lengthSquared := by
  cases hk : L.layout.offset? m with
  | none =>
    rw [freed_eq_zero hk, zero_mul]
    exact Finset.sum_eq_zero fun j _ => by rw [along_of_pinned hk, zero_mul]
  | some k =>
    rw [freed_eq_one hk, one_mul, h.sum_along hk, along_offset (r := 1) hk (by omega),
      along_offset (r := 2) hk (by omega), ← Nat.add_zero k, along_offset (r := 0) hk (by omega)]
    rfl

/-- The squares of a pull make those of the displacement for each member that moves. -/
theorem Regular.sum_sq_pull (h : L.Regular) (hne : i ≠ i') (d : Displacement ℝ) :
    ∑ j ∈ Finset.range L.size, (L.pull i i' d).getD j 0 * (L.pull i i' d).getD j 0 =
      (L.freed i + L.freed i') * d.lengthSquared := by
  have hcross : ∀ j, L.along i (-d) j * L.along i' d j = 0 := by
    intro j
    by_cases hplaces : L.layout.Places i j
    · rw [along_of_not_places (i := i') fun hplaces' =>
        hne (h.owner_unique hplaces.owns hplaces'.owns), mul_zero]
    · rw [along_of_not_places hplaces, zero_mul]
  have hback : (-d).lengthSquared = d.lengthSquared := by
    show -d.x * -d.x + -d.y * -d.y + -d.z * -d.z = d.x * d.x + d.y * d.y + d.z * d.z
    ring
  calc ∑ j ∈ Finset.range L.size, (L.pull i i' d).getD j 0 * (L.pull i i' d).getD j 0
      = ∑ j ∈ Finset.range L.size,
          (L.along i (-d) j * L.along i (-d) j + L.along i' d j * L.along i' d j) := by
        refine Finset.sum_congr rfl fun j hj => ?_
        rw [getD_pull (Finset.mem_range.1 hj)]
        linear_combination 2 * hcross j
    _ = (L.freed i + L.freed i') * d.lengthSquared := by
        rw [Finset.sum_add_distrib, h.sum_sq_along, h.sum_sq_along, hback, add_mul]

/-! ## States moved along a pull -/

/-- A member whose coordinates are moved along a displacement is moved so, unless it is
pinned. -/
theorem position_moved (e : Displacement ℝ)
    (h : ∀ k r, L.layout.offset? m = some k → r < 3 →
      s'.getD (k + r) 0 = s.getD (k + r) 0 + q * e.toList.getD r 0) :
    (L.pose s' m).position = (L.pose s m).position + e * (q * L.freed m) := by
  rw [Point.add_mul_eq]
  unfold pose
  cases hk : L.layout.offset? m with
  | none =>
    rw [freed_eq_zero hk]
    simp only [mul_zero, add_zero]
  | some k =>
    rw [freed_eq_one hk]
    dsimp only
    rw [mul_one, mul_comm e.x, mul_comm e.y, mul_comm e.z, h k 1 hk (by omega), h k 2 hk (by omega)]
    congr 1
    exact h k 0 hk (by omega)

section Moved

variable (h : L.Regular) (hne : i ≠ i')
  (hmove : ∀ j, j < L.size → s'.getD j 0 = s.getD j 0 + q * (L.pull i i' d).getD j 0)
include h hne hmove

/-- The way from one member to the other is longer by the move of each. -/
theorem Regular.way_pulled :
    ((L.pose s' i').position - (L.pose s' i).position : Displacement ℝ) =
      (L.pose s i').position - (L.pose s i).position + d * (q * (L.freed i + L.freed i')) := by
  have hstride := L.layout.three_le_stride
  have hfirst : (L.pose s' i).position = (L.pose s i).position + (-d) * (q * L.freed i) := by
    refine position_moved (-d) ?_
    intro k r hk hr
    have hle := h.offset_add_le hk
    rw [hmove _ (by omega), getD_pull (by omega), along_offset hk hr,
      h.along_other hk (by omega) hne, add_zero]
  have hsecond : (L.pose s' i').position = (L.pose s i').position + d * (q * L.freed i') := by
    refine position_moved d ?_
    intro k r hk hr
    have hle := h.offset_add_le hk
    rw [hmove _ (by omega), getD_pull (by omega), along_offset hk hr,
      h.along_other hk (by omega) hne.symm, zero_add]
  rw [hfirst, hsecond]
  generalize (L.pose s i).position = p, (L.pose s i').position = p'
  refine Displacement.ext_iff.2 ⟨?_, ?_, ?_⟩
  · show p'.x + d.x * (q * L.freed i') - (p.x + -d.x * (q * L.freed i)) =
      p'.x - p.x + d.x * (q * (L.freed i + L.freed i'))
    ring
  · show p'.y + d.y * (q * L.freed i') - (p.y + -d.y * (q * L.freed i)) =
      p'.y - p.y + d.y * (q * (L.freed i + L.freed i'))
    ring
  · show p'.z + d.z * (q * L.freed i') - (p.z + -d.z * (q * L.freed i)) =
      p'.z - p.z + d.z * (q * (L.freed i + L.freed i'))
    ring

omit hne in
/-- No member but the two moves. -/
theorem Regular.position_pulled (hm : m ≠ i) (hm' : m ≠ i') :
    (L.pose s' m).position = (L.pose s m).position := by
  refine position_congr fun j hj => ?_
  obtain ⟨k, hk, hle, hlt⟩ := hj
  obtain ⟨r, rfl⟩ := Nat.exists_eq_add_of_le hle
  have hfits := h.offset_add_le hk
  have hstride := L.layout.three_le_stride
  rw [hmove _ (by omega), getD_pull (by omega), h.along_other hk (by omega) hm,
    h.along_other hk (by omega) hm', add_zero, mul_zero, add_zero]

omit hne in
/-- No member turns. -/
theorem Regular.orientation_pulled (m : Nat) :
    (L.pose s' m).orientation = (L.pose s m).orientation := by
  refine orientation_congr fun j hj => ?_
  have hplaces : ∀ i, ¬L.layout.Places i j := fun i hi => by
    cases h.owner_unique hi.owns hj.owns
    exact hi.not_turns hj
  obtain ⟨k, hk, -, hlt⟩ := hj
  have hfits := h.offset_add_le hk
  rw [hmove _ (by omega), getD_pull (by omega), along_of_not_places (hplaces i),
    along_of_not_places (hplaces i'), add_zero, mul_zero, add_zero]

end Moved

end Linkage

end Joinery
