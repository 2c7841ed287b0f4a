import Mathlib
import Joinery.Proofs.Scalar.Exact
import Joinery.Space.Orientation
/-!
# Points and displacements in Euclidean space

Over exact numbers a point and a displacement are vectors of Euclidean space with the same
coordinates. Lengths, distances and products are those of that space, a direction is a unit
vector, and between directions the angle is the one of that space as well; the cosine is then
their product, with nothing cut off.
-/

namespace Joinery

/-! ## Displacements -/

namespace Displacement

theorem ext_iff {a b : Displacement ℝ} : a = b ↔ a.x = b.x ∧ a.y = b.y ∧ a.z = b.z := by
  cases a
  cases b
  simp

theorem lengthSquared_eq (d : Displacement ℝ) :
    d.lengthSquared = d.x * d.x + d.y * d.y + d.z * d.z := rfl

theorem lengthSquared_mul (d : Displacement ℝ) (r : ℝ) :
    (d * r).lengthSquared = d.lengthSquared * r ^ 2 := by
  show d.x * r * (d.x * r) + d.y * r * (d.y * r) + d.z * r * (d.z * r) =
    (d.x * d.x + d.y * d.y + d.z * d.z) * r ^ 2
  ring

/-- Along a unit displacement one comes as far as one goes. -/
theorem length_unit_mul {unit : Displacement ℝ} (h : unit.lengthSquared = 1) (r : ℝ) :
    (unit * r).length = |r| := by
  show Real.sqrt (unit * r).lengthSquared = |r|
  rw [lengthSquared_mul, h, one_mul, Real.sqrt_sq_eq_abs]

theorem length_sq (d : Displacement ℝ) : d.length ^ 2 = d.lengthSquared := by
  exact Real.sq_sqrt (add_nonneg (add_nonneg (mul_self_nonneg d.x) (mul_self_nonneg d.y))
    (mul_self_nonneg d.z))

/-- Every displacement goes its length along a unit one: along its own direction if it
has one, and along any other if it has none. -/
theorem eq_unit_mul {d unit : Displacement ℝ}
    (h : d.length ≠ 0 ∧ unit = d / d.length ∨ d.length = 0) : d = unit * d.length := by
  rcases h with ⟨hne, rfl⟩ | hzero
  · refine ext_iff.2 ⟨?_, ?_, ?_⟩
    · exact (div_mul_cancel₀ d.x hne).symm
    · exact (div_mul_cancel₀ d.y hne).symm
    · exact (div_mul_cancel₀ d.z hne).symm
  · have hsquares : d.x * d.x + d.y * d.y + d.z * d.z = 0 := by
      rw [← lengthSquared_eq, ← length_sq, hzero, sq, mul_zero]
    rw [hzero]
    refine ext_iff.2 ⟨?_, ?_, ?_⟩
    · show d.x = unit.x * 0
      nlinarith
    · show d.y = unit.y * 0
      nlinarith
    · show d.z = unit.z * 0
      nlinarith

theorem lengthSquared_div_length {d : Displacement ℝ} (h : d.length ≠ 0) :
    (d / d.length).lengthSquared = 1 := by
  have hsquare : (d / d.length).lengthSquared = d.lengthSquared / d.length ^ 2 := by
    show d.x / d.length * (d.x / d.length) + d.y / d.length * (d.y / d.length) +
      d.z / d.length * (d.z / d.length) = (d.x * d.x + d.y * d.y + d.z * d.z) / d.length ^ 2
    ring
  rw [hsquare, length_sq, ← length_sq, div_self (pow_ne_zero 2 h)]

end Displacement

theorem Point.add_mul_eq (p : Point ℝ) (d : Displacement ℝ) (r : ℝ) :
    p + d * r = ⟨p.x + d.x * r, p.y + d.y * r, p.z + d.z * r⟩ := rfl

/-! ## Vectors -/

/-- The vector with the coordinates of a displacement. -/
noncomputable def Displacement.vector (d : Displacement ℝ) : EuclideanSpace ℝ (Fin 3) :=
  WithLp.toLp _ ![d.x, d.y, d.z]

/-- The vector with the coordinates of a point. -/
noncomputable def Point.vector (p : Point ℝ) : EuclideanSpace ℝ (Fin 3) :=
  WithLp.toLp _ ![p.x, p.y, p.z]

namespace Displacement

variable (d e : Displacement ℝ)

theorem dot_eq_inner : d.dot e = inner ℝ d.vector e.vector := by
  simp only [vector, PiLp.inner_apply, Fin.sum_univ_three]
  show d.x * e.x + d.y * e.y + d.z * e.z = e.x * d.x + e.y * d.y + e.z * d.z
  ring

theorem length_eq_norm : d.length = ‖d.vector‖ := by
  rw [norm_eq_sqrt_real_inner, ← dot_eq_inner]
  rfl

/-- What two displacements have across each other and along each other makes up both
lengths. -/
theorem sq_length_cross :
    (d.cross e).length ^ 2 + d.dot e ^ 2 = (d.length * e.length) ^ 2 := by
  rw [mul_pow, length_sq, length_sq, length_sq]
  show (d.y * e.z - d.z * e.y) * (d.y * e.z - d.z * e.y) +
      (d.z * e.x - d.x * e.z) * (d.z * e.x - d.x * e.z) +
      (d.x * e.y - d.y * e.x) * (d.x * e.y - d.y * e.x) + (d.x * e.x + d.y * e.y + d.z * e.z) ^ 2 =
    (d.x * d.x + d.y * d.y + d.z * d.z) * (e.x * e.x + e.y * e.y + e.z * e.z)
  ring

variable {d e}

/-- The angle between two displacements is that between their vectors. -/
theorem angle_eq (hd : d.vector ≠ 0) (he : e.vector ≠ 0) :
    d.angle e = InnerProductGeometry.angle d.vector e.vector := by
  have hnorm : ‖(⟨d.dot e, (d.cross e).length⟩ : ℂ)‖ = ‖d.vector‖ * ‖e.vector‖ := by
    rw [Complex.norm_eq_sqrt_sq_add_sq, add_comm, sq_length_cross, length_eq_norm, length_eq_norm,
      Real.sqrt_sq (by positivity)]
  have hne : (⟨d.dot e, (d.cross e).length⟩ : ℂ) ≠ 0 := by
    rw [← norm_pos_iff, hnorm]
    exact mul_pos (norm_pos_iff.2 hd) (norm_pos_iff.2 he)
  show Complex.arg ⟨d.dot e, (d.cross e).length⟩ = _
  rw [Complex.arg_of_im_nonneg_of_ne_zero (Real.sqrt_nonneg _) hne, hnorm, dot_eq_inner]
  rfl

end Displacement

namespace Point

theorem vector_injective : Function.Injective Point.vector := by
  intro p q h
  have hcoordinate : ∀ k, p.vector k = q.vector k := fun k => congrArg (fun v => v k) h
  obtain ⟨x, y, z⟩ := p
  obtain ⟨x', y', z'⟩ := q
  exact congr (congr (congrArg Point.mk (hcoordinate 0)) (hcoordinate 1)) (hcoordinate 2)

theorem vector_sub (p q : Point ℝ) : (p - q : Displacement ℝ).vector = p.vector - q.vector := by
  ext k
  fin_cases k <;> rfl

theorem length_sub (p q : Point ℝ) :
    (q - p : Displacement ℝ).length = dist p.vector q.vector := by
  rw [Displacement.length_eq_norm, vector_sub, dist_comm, dist_eq_norm]

end Point

/-! ## Directions -/

namespace EulerAngles

/-- The direction is the first column of the rotation. -/
theorem direction_eq (e : EulerAngles ℝ) :
    e.direction = ⟨Real.cos e.yaw * Real.cos e.pitch, Real.sin e.yaw * Real.cos e.pitch,
      -Real.sin e.pitch⟩ := by
  have hdot : ∀ x y z : ℝ, (⟨x, y, z⟩ : Displacement ℝ).dot .xUnit = x := by
    intro x y z
    show x * 1 + y * 0 + z * 0 = x
    ring
  unfold direction rotation Rotation.apply
  dsimp only
  rw [hdot, hdot, hdot]
  rfl

/-- A direction is a unit vector. -/
theorem norm_direction (e : EulerAngles ℝ) : ‖e.direction.vector‖ = 1 := by
  have hsquares : e.direction.lengthSquared = 1 := by
    rw [direction_eq]
    show Real.cos e.yaw * Real.cos e.pitch * (Real.cos e.yaw * Real.cos e.pitch) +
      Real.sin e.yaw * Real.cos e.pitch * (Real.sin e.yaw * Real.cos e.pitch) +
        -Real.sin e.pitch * -Real.sin e.pitch = 1
    calc _ = (Real.sin e.yaw ^ 2 + Real.cos e.yaw ^ 2) * Real.cos e.pitch ^ 2 +
          Real.sin e.pitch ^ 2 := by ring
      _ = 1 := by rw [Real.sin_sq_add_cos_sq, one_mul, Real.cos_sq_add_sin_sq]
  rw [← Displacement.length_eq_norm]
  exact (congrArg Real.sqrt hsquares).trans Real.sqrt_one

theorem direction_ne_zero (e : EulerAngles ℝ) : e.direction.vector ≠ 0 :=
  norm_ne_zero_iff.1 (e.norm_direction.trans_ne one_ne_zero)

variable (e f : EulerAngles ℝ)

theorem abs_inner_direction_le : |inner ℝ e.direction.vector f.direction.vector| ≤ 1 := by
  have h := abs_real_inner_le_norm e.direction.vector f.direction.vector
  rwa [norm_direction, norm_direction, one_mul] at h

/-- Between directions nothing is cut off: neither is all but zero, and the quotient of their
product and their lengths is a cosine. -/
structure SureCosine : Prop where
  long : ¬e.direction.length * f.direction.length < 1e-15
  within : e.direction.dot f.direction / (e.direction.length * f.direction.length) ∈ Set.Icc (-1) 1
  cosine_eq : e.direction.cosine f.direction =
    e.direction.dot f.direction / (e.direction.length * f.direction.length)

theorem length_mul_length_direction : e.direction.length * f.direction.length = 1 := by
  rw [Displacement.length_eq_norm, Displacement.length_eq_norm, norm_direction, norm_direction,
    one_mul]

theorem sureCosine : SureCosine e f := by
  have hlong : ¬e.direction.length * f.direction.length < 1e-15 := by
    rw [length_mul_length_direction]
    norm_num
  have hwithin : e.direction.dot f.direction / (e.direction.length * f.direction.length) ∈
      Set.Icc (-1) 1 := by
    rw [length_mul_length_direction, div_one, Displacement.dot_eq_inner]
    exact Set.mem_Icc.2 (abs_le.1 (abs_inner_direction_le e f))
  refine ⟨hlong, hwithin, ?_⟩
  rw [Displacement.cosine, if_neg hlong, Arithmetic.clamp, if_neg (not_lt.2 hwithin.1),
    if_neg (not_lt.2 hwithin.2)]

/-- The cosine between directions is their product. -/
theorem cosine_direction :
    e.direction.cosine f.direction = inner ℝ e.direction.vector f.direction.vector := by
  rw [(sureCosine e f).cosine_eq, length_mul_length_direction, div_one, Displacement.dot_eq_inner]

end EulerAngles

end Joinery
