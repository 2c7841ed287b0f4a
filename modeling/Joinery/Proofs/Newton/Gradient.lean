import Mathlib
import Joinery.Proofs.Newton.Separation
/-!
# Slopes of a separation, in closed form and measured

The slopes of a separation have a closed form, and could be measured as all others are. The
separation is a convex function of each coordinate, so the distances to both sides are
together at least twice the one between them, and they are more by the square of the step
at most. So what would be measured has the sign of the slope, falls short of it if it
differs at all, and differs by half the square of the step over the separation
(`slopes_measured`).
-/

namespace Joinery

open Joinery.Dense Joinery.Newton

/-! ## Distances to both sides -/

/-- What a measured slope is to one in closed form. -/
structure Approximates (measured exact bound : ℝ) : Prop where
  near : |exact - measured| ≤ bound
  sign : SignType.sign measured = SignType.sign exact
  le : |measured| ≤ |exact|

theorem approximates_zero {bound : ℝ} (h : 0 ≤ bound) : Approximates 0 0 bound :=
  ⟨by rwa [sub_self, abs_zero], rfl, le_rfl⟩

theorem Approximates.mul_left {measured exact bound weight : ℝ} (h : Approximates measured exact bound)
    (hweight : 0 < weight) :
    Approximates (weight * measured) (weight * exact) (weight * bound) where
  near := by
    rw [← mul_sub, abs_mul, abs_of_pos hweight]
    exact mul_le_mul_of_nonneg_left h.near hweight.le
  sign := by rw [sign_mul, sign_mul, h.sign]
  le := by
    rw [abs_mul, abs_mul]
    exact mul_le_mul_of_nonneg_left h.le (abs_nonneg weight)

section Sides

variable {d u h ahead behind : ℝ} (hd : 0 < d) (hu : u ^ 2 ≤ d ^ 2) (hahead : 0 ≤ ahead)
  (hbehind : 0 ≤ behind) (hsq : ahead ^ 2 = d ^ 2 + 2 * h * u + h ^ 2)
  (hsq' : behind ^ 2 = d ^ 2 - 2 * h * u + h ^ 2)
include hsq hsq'

include hu hahead hbehind in
theorem two_mul_le_sides : 2 * d ≤ ahead + behind := by
  have hsquares : (d ^ 2 - h ^ 2) ^ 2 ≤ (ahead * behind) ^ 2 := by
    have hslack : 0 ≤ 4 * h ^ 2 * (d ^ 2 - u ^ 2) :=
      mul_nonneg (mul_nonneg zero_le_four (sq_nonneg h)) (sub_nonneg.2 hu)
    calc (d ^ 2 - h ^ 2) ^ 2 ≤ (d ^ 2 - h ^ 2) ^ 2 + 4 * h ^ 2 * (d ^ 2 - u ^ 2) :=
          le_add_of_nonneg_right hslack
      _ = (ahead * behind) ^ 2 := by rw [mul_pow, hsq, hsq']; ring
  have hproduct := (abs_le_of_sq_le_sq' hsquares (mul_nonneg hahead hbehind)).2
  refine (abs_le_of_sq_le_sq' ?_ (add_nonneg hahead hbehind)).2
  calc (2 * d) ^ 2 ≤ ahead ^ 2 + behind ^ 2 + 2 * (ahead * behind) := by
        rw [hsq, hsq']
        linarith
    _ = (ahead + behind) ^ 2 := by ring

include hd in
theorem sides_le : ahead + behind ≤ 2 * d + h ^ 2 / d := by
  have hbound : 0 ≤ 2 * d + h ^ 2 / d := by positivity
  refine (abs_le_of_sq_le_sq' ?_ hbound).2
  calc (ahead + behind) ^ 2 ≤ 2 * (ahead ^ 2 + behind ^ 2) := by
        linarith [sq_nonneg (ahead - behind)]
    _ = 4 * d ^ 2 + 4 * h ^ 2 := by rw [hsq, hsq']; ring
    _ ≤ 4 * d ^ 2 + 4 * h ^ 2 + (h ^ 2 / d) ^ 2 := le_add_of_nonneg_right (sq_nonneg _)
    _ = (2 * d + h ^ 2 / d) ^ 2 := by
        field_simp
        ring

include hd hu hahead hbehind in
/-- The difference quotient of a distance that is the root of a square in the step. -/
theorem quotient_approximates (hh : 0 < h) :
    Approximates ((ahead - behind) / (2 * h)) (u / d) ((h / d) ^ 2 / 2) := by
  have hlow := two_mul_le_sides hu hahead hbehind hsq hsq'
  have hhigh := sides_le hd hsq hsq'
  have hsum : 0 < ahead + behind := by linarith
  have hquotient : (ahead - behind) / (2 * h) = u * (2 / (ahead + behind)) := by
    rw [mul_div_assoc', div_eq_div_iff (by positivity) hsum.ne']
    linarith [show (ahead - behind) * (ahead + behind) = ahead ^ 2 - behind ^ 2 by ring]
  have hexact : u / d = u * (1 / d) := by ring
  have hfactor : 2 / (ahead + behind) ≤ 1 / d := by
    rw [div_le_div_iff₀ hsum hd]
    linarith
  have hpos : 0 < 2 / (ahead + behind) := div_pos two_pos hsum
  rw [hquotient, hexact]
  refine ⟨?_, ?_, ?_⟩
  · have hgap : 1 / d - 2 / (ahead + behind) ≤ h ^ 2 / d / (d * (2 * d)) := by
      have hdifference : 1 / d - 2 / (ahead + behind) =
          (ahead + behind - 2 * d) / (d * (ahead + behind)) := by
        field_simp
      rw [hdifference]
      exact div_le_div₀ (by positivity) (by linarith) (by positivity)
        (mul_le_mul_of_nonneg_left hlow hd.le)
    have hside : |u| ≤ d := abs_le_of_sq_le_sq hu hd.le
    calc |u * (1 / d) - u * (2 / (ahead + behind))|
        = |u| * (1 / d - 2 / (ahead + behind)) := by
          rw [← mul_sub, abs_mul, abs_of_nonneg (sub_nonneg.2 hfactor)]
      _ ≤ d * (h ^ 2 / d / (d * (2 * d))) :=
          mul_le_mul hside hgap (sub_nonneg.2 hfactor) hd.le
      _ = (h / d) ^ 2 / 2 := by
          field_simp
  · rw [sign_mul, sign_mul, sign_pos hpos, sign_pos (one_div_pos.2 hd)]
  · rw [abs_mul, abs_mul, abs_of_pos hpos, abs_of_pos (one_div_pos.2 hd)]
    exact mul_le_mul_of_nonneg_left hfactor (abs_nonneg u)

end Sides

/-! ## One coordinate moved -/

namespace Displacement

/-- The unit displacement along one of the three axes. -/
def axis (r : Nat) : Displacement ℝ :=
  ⟨if r = 0 then 1 else 0, if r = 1 then 1 else 0, if r = 2 then 1 else 0⟩

variable {r : Nat} (hr : r < 3)
include hr

theorem lengthSquared_add_axis (d : Displacement ℝ) (q : ℝ) :
    (d + axis r * q).lengthSquared = d.lengthSquared + 2 * q * d.toList.getD r 0 + q ^ 2 := by
  rw [lengthSquared_eq, lengthSquared_eq]
  interval_cases r
  · show (d.x + 1 * q) * (d.x + 1 * q) + (d.y + 0 * q) * (d.y + 0 * q) +
      (d.z + 0 * q) * (d.z + 0 * q) = d.x * d.x + d.y * d.y + d.z * d.z + 2 * q * d.x + q ^ 2
    ring
  · show (d.x + 0 * q) * (d.x + 0 * q) + (d.y + 1 * q) * (d.y + 1 * q) +
      (d.z + 0 * q) * (d.z + 0 * q) = d.x * d.x + d.y * d.y + d.z * d.z + 2 * q * d.y + q ^ 2
    ring
  · show (d.x + 0 * q) * (d.x + 0 * q) + (d.y + 0 * q) * (d.y + 0 * q) +
      (d.z + 1 * q) * (d.z + 1 * q) = d.x * d.x + d.y * d.y + d.z * d.z + 2 * q * d.z + q ^ 2
    ring

theorem sq_getD_le (d : Displacement ℝ) : d.toList.getD r 0 ^ 2 ≤ d.lengthSquared := by
  rw [lengthSquared_eq]
  interval_cases r
  · show d.x ^ 2 ≤ _
    nlinarith [mul_self_nonneg d.y, mul_self_nonneg d.z]
  · show d.y ^ 2 ≤ _
    nlinarith [mul_self_nonneg d.x, mul_self_nonneg d.z]
  · show d.z ^ 2 ≤ _
    nlinarith [mul_self_nonneg d.x, mul_self_nonneg d.y]

theorem getD_neg (d : Displacement ℝ) : (-d).toList.getD r 0 = -d.toList.getD r 0 := by
  interval_cases r <;> rfl

omit hr in
theorem getD_mul (d : Displacement ℝ) (q : ℝ) : (d * q).toList.getD r 0 = d.toList.getD r 0 * q := by
  match r with
  | 0 | 1 | 2 => rfl
  | r + 3 => exact (zero_mul q).symm

end Displacement

namespace Linkage

variable {L : Linkage ℝ} {s : Array ℝ} {i i' j : Nat} {con : Constraint Nat ℝ} {step q : ℝ}

/-- The way from one member to another. -/
noncomputable def way (L : Linkage ℝ) (s : Array ℝ) (i i' : Nat) : Displacement ℝ :=
  (L.pose s i').position - (L.pose s i).position

theorem along_mul (L : Linkage ℝ) (i : Nat) (d : Displacement ℝ) (q : ℝ) (j : Nat) :
    L.along i (d * q) j = L.along i d j * q := by
  unfold along
  split
  · exact Displacement.getD_mul d q
  · exact (zero_mul q).symm

theorem getD_pull_mul (hj : j < L.size) (d : Displacement ℝ) (q : ℝ) :
    (L.pull i i' (d * q)).getD j 0 = (L.pull i i' d).getD j 0 * q := by
  have hneg : -(d * q) = -d * q := by
    refine Displacement.ext_iff.2 ⟨?_, ?_, ?_⟩ <;> exact (neg_mul _ _).symm
  rw [getD_pull hj, getD_pull hj, hneg, along_mul, along_mul, add_mul]

/-- A member of which one coordinate is moved is moved along its axis. -/
theorem position_set {k r : Nat} (hk : L.layout.offset? i = some k) (hr : r < 3)
    (hsize : k + r < s.size) (q : ℝ) :
    (L.pose (s.setIfInBounds (k + r) (s.getD (k + r) 0 + q)) i).position =
      (L.pose s i).position + Displacement.axis r * q := by
  have hmoved : (L.pose (s.setIfInBounds (k + r) (s.getD (k + r) 0 + q)) i).position =
      (L.pose s i).position + Displacement.axis r * (q * L.freed i) := by
    refine position_moved (Displacement.axis r) fun k' r' hk' hr' => ?_
    cases hk.symm.trans hk'
    by_cases heq : r = r'
    · subst heq
      rw [getD_setIfInBounds hsize, if_pos rfl]
      interval_cases r <;> exact congrArg (_ + ·) (mul_one q).symm
    · rw [getD_setIfInBounds_of_ne (by omega)]
      have hzero : (Displacement.axis r).toList.getD r' 0 = 0 := by
        interval_cases r' <;> simp [Displacement.axis, Displacement.toList, heq]
      rw [hzero, mul_zero, add_zero]
  rwa [freed_eq_one hk, mul_one] at hmoved

/-- A member of which no coordinate is moved stays. -/
theorem position_set_other (hplaces : ¬L.layout.Places i j) (x : ℝ) :
    (L.pose (s.setIfInBounds j x) i).position = (L.pose s i).position := by
  refine position_congr fun j' hj' => getD_setIfInBounds_of_ne ?_ x
  rintro rfl
  exact hplaces hj'

section Coordinate

variable (hL : L.Regular) (hne : i ≠ i') (hlt : j < L.size) (hj : j < s.size)
  (hplaces : L.layout.Places i j ∨ L.layout.Places i' j)
include hL hne hlt hj hplaces

/-- A coordinate of one of two members moves the way between them along an axis, or against
it, and that coordinate of a displacement is what a pull has there. -/
theorem exists_axis : ∃ r < 3, ∃ sign : ℝ, sign ^ 2 = 1 ∧
    (∀ d, (L.pull i i' d).getD j 0 = sign * d.toList.getD r 0) ∧
      ∀ q, L.way (s.setIfInBounds j (s.getD j 0 + q)) i i' =
        L.way s i i' + Displacement.axis r * (sign * q) := by
  have hother : ∀ {m m'}, m ≠ m' → L.layout.Places m j → ¬L.layout.Places m' j :=
    fun hne h h' => hne (hL.owner_unique h.owns h'.owns)
  rcases hplaces with hplaces | hplaces
  · have hplaces' := hother hne hplaces
    obtain ⟨k, hk, hle, hlt'⟩ := hplaces
    obtain ⟨r, rfl⟩ := Nat.exists_eq_add_of_le hle
    have hr : r < 3 := by omega
    refine ⟨r, hr, -1, by norm_num, fun d => ?_, fun q => ?_⟩
    · rw [getD_pull hlt, along_offset hk hr, along_of_not_places hplaces',
        Displacement.getD_neg hr, add_zero, neg_one_mul]
    · rw [way, way, position_set hk hr hj, position_set_other hplaces']
      generalize (L.pose s i).position = p, (L.pose s i').position = p'
      refine Displacement.ext_iff.2 ⟨?_, ?_, ?_⟩
      · show p'.x - (p.x + _ * q) = p'.x - p.x + _ * (-1 * q)
        ring
      · show p'.y - (p.y + _ * q) = p'.y - p.y + _ * (-1 * q)
        ring
      · show p'.z - (p.z + _ * q) = p'.z - p.z + _ * (-1 * q)
        ring
  · have hplaces' := hother hne.symm hplaces
    obtain ⟨k, hk, hle, hlt'⟩ := hplaces
    obtain ⟨r, rfl⟩ := Nat.exists_eq_add_of_le hle
    have hr : r < 3 := by omega
    refine ⟨r, hr, 1, by norm_num, fun d => ?_, fun q => ?_⟩
    · rw [getD_pull hlt, along_offset hk hr, along_of_not_places hplaces', zero_add, one_mul]
    · rw [way, way, position_set hk hr hj, position_set_other hplaces', one_mul]
      refine Displacement.ext_iff.2 ⟨?_, ?_, ?_⟩ <;> exact add_sub_right_comm _ _ _

/-- The square of a separation is a square in each coordinate of the two members. -/
theorem lengthSquared_way_set (q : ℝ) :
    (L.way (s.setIfInBounds j (s.getD j 0 + q)) i i').lengthSquared =
      (L.way s i i').lengthSquared + 2 * q * (L.pull i i' (L.way s i i')).getD j 0 + q ^ 2 := by
  obtain ⟨r, hr, sign, hsign, hpull, hway⟩ := exists_axis hL hne hlt hj hplaces
  rw [hway, hpull, Displacement.lengthSquared_add_axis hr, mul_pow, hsign]
  ring

/-- No coordinate has more of the way than there is. -/
theorem sq_getD_pull_le (d : Displacement ℝ) :
    (L.pull i i' d).getD j 0 ^ 2 ≤ d.lengthSquared := by
  obtain ⟨r, hr, sign, hsign, hpull, -⟩ := exists_axis hL hne hlt hj hplaces
  rw [hpull, mul_pow, hsign, one_mul]
  exact Displacement.sq_getD_le hr d

end Coordinate

/-! ## The slopes of a constraint -/

section Slopes

variable {relation : Relation ℝ} (hbond : con.bond = .pair relation i i')
  (hrelation : relation = .coincident ∨ relation = .tangent ∨ ∃ t, relation = .distance t)
include hbond hrelation

/-- A constraint on the separation deviates by it less a number, which is the same in all
states. -/
theorem exists_target : ∃ t, ∀ s, L.deviation s con = con.weight * (L.separation s i i' - t) := by
  have hdemand : ∃ t, ∀ s, relation.demand? ((L.body s i).radius + (L.body s i').radius) =
      some (.separation, t) := by
    rcases hrelation with rfl | rfl | ⟨t, rfl⟩
    · exact ⟨0, fun _ => rfl⟩
    · exact ⟨(L.body #[] i).radius + (L.body #[] i').radius, fun _ => rfl⟩
    · exact ⟨t, fun _ => rfl⟩
  obtain ⟨t, ht⟩ := hdemand
  exact ⟨t, deviation_of_demands hbond ht⟩

/-- The slopes of members that are apart are a pull along the way. -/
theorem slopeRow_apart (hapart : 1e-12 < L.separation s i i') (step : ℝ) :
    L.slopeRow s step con =
      L.pull i i' (L.way s i i' / L.separation s i i' * con.weight) := by
  have hheading : ∀ apart, L.heading? s i i' apart =
      some (L.way s i i' / L.separation s i i') := fun _ => if_pos hapart
  unfold slopeRow
  rw [hbond]
  rcases hrelation with rfl | rfl | ⟨t, rfl⟩ <;>
    exact separationRow_of_heading (hheading _) con.weight

end Slopes

theorem separation_sq (L : Linkage ℝ) (s : Array ℝ) (i i' : Nat) :
    L.separation s i i' ^ 2 = (L.way s i i').lengthSquared :=
  Displacement.length_sq _

/-- How far a variable is moved to either side when its slope is measured. -/
noncomputable def reach (s : Array ℝ) (step : ℝ) (j : Nat) : ℝ := step * max |s.getD j 0| 1

/-- The slope with a coordinate of one of two members that are apart, in closed form and as it
would be measured. -/
theorem approximates_of_places {relation : Relation ℝ} (hL : L.Regular)
    (hbond : con.bond = .pair relation i i')
    (hrelation : relation = .coincident ∨ relation = .tangent ∨ ∃ t, relation = .distance t)
    (hweight : 0 < con.weight) (hne : i ≠ i') (hapart : 1e-12 < L.separation s i i')
    (hstep : 0 < step) (hlt : j < L.size) (hj : j < s.size)
    (hplaces : L.layout.Places i j ∨ L.layout.Places i' j) :
    Approximates ((L.measuredRow s step con).getD j 0) ((L.slopeRow s step con).getD j 0)
      (con.weight * (reach s step j / L.separation s i i') ^ 2 / 2) := by
  have hd : 0 < L.separation s i i' := lt_trans (by norm_num) hapart
  have hh : 0 < reach s step j := mul_pos hstep (lt_of_lt_of_le one_pos (le_max_right _ _))
  have hexact : (L.slopeRow s step con).getD j 0 = con.weight *
      ((L.pull i i' (L.way s i i')).getD j 0 / L.separation s i i') := by
    have hdiv : L.way s i i' / L.separation s i i' = L.way s i i' * (1 / L.separation s i i') :=
      Displacement.ext_iff.2 ⟨div_eq_mul_one_div _ _, div_eq_mul_one_div _ _, div_eq_mul_one_div _ _⟩
    rw [slopeRow_apart hbond hrelation hapart, getD_pull_mul hlt, hdiv, getD_pull_mul hlt]
    ring
  obtain ⟨t, ht⟩ := exists_target (L := L) hbond hrelation
  have hmeasured : (L.measuredRow s step con).getD j 0 = con.weight *
      ((L.separation (s.setIfInBounds j (s.getD j 0 + reach s step j)) i i' -
        L.separation (s.setIfInBounds j (s.getD j 0 + -reach s step j)) i i') /
          (2 * reach s step j)) := by
    have howns : (con.bond.ends.any fun i => L.layout.owns i j) = true := by
      rw [hbond]
      rcases hplaces with hplaces | hplaces <;> simp [Bond.ends, hplaces.owns]
    have hback : s.getD j 0 + -reach s step j = s.getD j 0 - reach s step j :=
      (sub_eq_add_neg _ _).symm
    have htwice : Arithmetic.twice (reach s step j) = 2 * reach s step j := by
      rw [Arithmetic.twice, one_add_one_eq_two]
    rw [measuredRow, Dense.getD_ofFn _ hlt, if_pos howns, measuredSlope, Ordered.max_eq]
    show (L.deviation (s.setIfInBounds j (s.getD j 0 + reach s step j)) con -
      L.deviation (s.setIfInBounds j (s.getD j 0 - reach s step j)) con) /
        Arithmetic.twice (reach s step j) = _
    rw [ht, ht, hback, htwice]
    ring
  have hmoved : ∀ q, L.separation (s.setIfInBounds j (s.getD j 0 + q)) i i' ^ 2 =
      L.separation s i i' ^ 2 + 2 * q * (L.pull i i' (L.way s i i')).getD j 0 + q ^ 2 := by
    intro q
    rw [separation_sq, separation_sq, lengthSquared_way_set hL hne hlt hj hplaces]
  have hbound : con.weight * (reach s step j / L.separation s i i') ^ 2 / 2 =
      con.weight * ((reach s step j / L.separation s i i') ^ 2 / 2) := mul_div_assoc _ _ _
  rw [hexact, hmeasured, hbound]
  refine Approximates.mul_left (quotient_approximates hd ?_ ?_ ?_ ?_ ?_ hh) hweight
  · rw [separation_sq]
    exact sq_getD_pull_le hL hne hlt hj hplaces _
  · exact Real.sqrt_nonneg _
  · exact Real.sqrt_nonneg _
  · exact hmoved _
  · rw [hmoved]
    ring

/-- The slopes of a constraint on the separation of two members that are apart, in closed form
and as they would be measured. -/
theorem slopes_measured {a : Assembly ℝ} {initial : PositionMap ℝ} {turning : Bool}
    (hlink : a.link? initial turning = .ok L) (hs : L.size ≤ s.size) (hstep : 0 < step) {n : Nat}
    (hcon : L.constraints[n]? = some con) {relation : Relation ℝ}
    (hbond : con.bond = .pair relation i i')
    (hrelation : relation = .coincident ∨ relation = .tangent ∨ ∃ t, relation = .distance t)
    (hne : i ≠ i') (hapart : 1e-12 < L.separation s i i') (hj : j < L.size) :
    Approximates ((L.measuredRow s step con).getD j 0) ((L.slopes s step).entry n j)
        (con.weight * (reach s step j / L.separation s i i') ^ 2 / 2) ∧
      (¬L.layout.Places i j → ¬L.layout.Places i' j →
        (L.slopes s step).entry n j = 0 ∧ (L.measuredRow s step con).getD j 0 = 0) := by
  obtain ⟨hwell, -, rfl⟩ := Assembly.link?_eq_ok_iff.1 hlink
  have hregular := regular_linkage a initial turning
  have hweight : 0 < con.weight := by
    obtain ⟨con', hcon', rfl⟩ := List.mem_map.1 (List.mem_of_getElem? hcon)
    exact ((Assembly.wellFormed_iff_inOrder.1 hwell).numbers con' hcon').weight.2
  rw [entry_slopes _ s step hcon hj]
  have hunread : ¬(a.linkage initial turning).layout.Places i j →
      ¬(a.linkage initial turning).layout.Places i' j →
        ((a.linkage initial turning).slopeRow s step con).getD j 0 = 0 ∧
          ((a.linkage initial turning).measuredRow s step con).getD j 0 = 0 := by
    intro hi hi'
    have hdirectional : relation.isDirectional = false := by
      rcases hrelation with rfl | rfl | ⟨t, rfl⟩ <;> rfl
    have hignores : (a.linkage initial turning).Ignores con j := Ignores.of_not_reads (by
      rw [hbond, Bond.Reads, hdirectional]
      simp [hi, hi'])
    exact ⟨Exact.blank_iff.1 (slopeRow_blank hignores step),
      Exact.blank_iff.1 (measuredRow_blank hignores step)⟩
  refine ⟨?_, hunread⟩
  by_cases hplaces : (a.linkage initial turning).layout.Places i j ∨
      (a.linkage initial turning).layout.Places i' j
  · exact approximates_of_places hregular hbond hrelation hweight hne hapart hstep hj
      (hj.trans_le hs) hplaces
  · obtain ⟨hexact, hmeasured⟩ := hunread (not_or.1 hplaces).1 (not_or.1 hplaces).2
    rw [hexact, hmeasured]
    exact approximates_zero (div_nonneg (mul_nonneg hweight.le (sq_nonneg _)) zero_le_two)

end Linkage

/-- A rod to be held at a distance from a wall that stays. -/
noncomputable def strut : Assembly ℝ where
  metadata := ⟨⟨0⟩, "strut", 1, ⟨⟨2000, 1, 1⟩, 0, 0⟩, ⟨⟨2000, 1, 1⟩, 0, 0⟩⟩
  components := [.placed "wall" .origin, .placed "rod" ⟨3, (4 : ℕ), 0⟩]
  constraints := [⟨"mount", .fixed "wall", none, 1⟩,
    ⟨"span", .pair (.distance 1) "wall" "rod", none, (2 : ℕ)⟩]

theorem wellFormed_strut : strut.WellFormed := by
  constructor <;> simp [strut, Component.placed, Component.radiusProblem?, Component.radius,
    IdMap.get?, IdMap.empty, Constraint.defect?, Constraint.defect?.ofBond, Bond.ends,
    Relation.defect?]
  norm_num

/-- The slope along the first axis, measured with a step of three tenths, is off by less than
one in two hundred. -/
theorem slopes_measured_strut : ∃ L, strut.link? .empty false = .ok L ∧
    L.separation #[3, 4, 0] 0 1 = 5 ∧
      |(L.slopes #[3, 4, 0] (1 / 10)).entry 1 0 - (L.measuredRow #[3, 4, 0] (1 / 10)
        ⟨"span", .pair (.distance 1) 0 1, none, 2⟩).getD 0 0| ≤ 1 / 200 := by
  have hlink := Assembly.link?_of_finite Exact.isFinite_eq wellFormed_strut .empty false
  have hseparation : (strut.linkage .empty false).separation #[3, 4, 0] 0 1 = 5 := by
    show Real.sqrt ((3 - 0) * (3 - 0) + (4 - 0) * (4 - 0) + (0 - 0) * (0 - 0)) = 5
    rw [Real.sqrt_eq_iff_eq_sq] <;> norm_num
  have hcon : (strut.linkage .empty false).constraints[1]? =
      some ⟨"span", .pair (.distance 1) 0 1, none, 2⟩ := rfl
  have happroximates := (Linkage.slopes_measured (s := #[3, 4, 0]) (j := 0) hlink le_rfl
    (show (0 : ℝ) < 1 / 10 by norm_num) hcon rfl (.inr (.inr ⟨1, rfl⟩)) (by decide)
    (by rw [hseparation]; norm_num) (by decide)).1
  refine ⟨_, hlink, hseparation, happroximates.near.trans ?_⟩
  have hreach : Linkage.reach #[3, 4, 0] (1 / 10) 0 = 3 / 10 := by
    show 1 / 10 * max |(3 : ℝ)| 1 = 3 / 10
    norm_num
  rw [hseparation, hreach]
  norm_num

end Joinery
