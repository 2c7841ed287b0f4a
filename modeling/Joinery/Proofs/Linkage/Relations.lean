import Mathlib
import Joinery.Linkage.Body
import Joinery.Proofs.Space.Euclid
/-!
# What a relation says

`Relation.Holds` says of two bodies that they have a relation, in terms of the space they are
in: the distance of their places, the angle between their headings, a plane halfway between
them. Over exact numbers the deviation is zero just where this is so
(`deviation_zero_iff_holds`), for parallels by the equality case of the inequality of Cauchy
and Schwarz. So a solver that drives deviations to zero stops nowhere else.
-/

namespace Joinery

/-! ## Relations of bodies -/

/-- Where a body is. -/
noncomputable def Body.place (b : Body ℝ) : EuclideanSpace ℝ (Fin 3) := b.pose.position.vector

/-- The way a body points. -/
noncomputable def Body.heading (b : Body ℝ) : EuclideanSpace ℝ (Fin 3) := b.direction.vector

/-- The coordinate of a point along an axis. -/
def Point.coordinate {α : Type} (p : Point α) : Axis → α
  | .x => p.x
  | .y => p.y
  | .z => p.z

/-- Whether a plane is as far ahead of one point as it is behind another, and the two points
differ in nothing else. -/
def MirrorPlane.Halves (m : MirrorPlane ℝ) (p q : Point ℝ) : Prop :=
  m.offset - p.coordinate m.axis = q.coordinate m.axis - m.offset ∧
    ∀ axis, axis ≠ m.axis → p.coordinate axis = q.coordinate axis

/-- Whether two bodies stand to each other as a relation says. -/
def Relation.Holds (a b : Body ℝ) : Relation ℝ → Prop
  | coincident => a.pose.position = b.pose.position
  | distance target => dist a.place b.place = target
  | parallel => a.heading = b.heading ∨ a.heading = -b.heading
  | perpendicular => a.heading.ofLp ⬝ᵥ b.heading.ofLp = 0
  | angle target => InnerProductGeometry.angle a.heading b.heading = target * Scalar.degree
  | tangent => dist a.place b.place = a.radius + b.radius
  | symmetric plane => plane.Halves a.pose.position b.pose.position

/-! ## Places -/

section Bodies

variable (a b : Body ℝ)

theorem Body.separation_eq : a.separation b = dist a.place b.place := Point.length_sub _ _

theorem Axis.forall_iff {P : Axis → Prop} : (∀ axis, P axis) ↔ P .x ∧ P .y ∧ P .z := by
  refine ⟨fun h => ⟨h .x, h .y, h .z⟩, fun h axis => ?_⟩
  cases axis with
  | x => exact h.1
  | y => exact h.2.1
  | z => exact h.2.2

/-- The image of a point is on the other side of the plane, as far away. -/
theorem MirrorPlane.mirror_eq_iff (m : MirrorPlane ℝ) (p q : Point ℝ) :
    m.mirror p = q ↔ m.Halves p q := by
  have hhalf : ∀ offset x y : ℝ, Arithmetic.twice offset - x = y ↔ offset - x = y - offset := by
    intro offset x y
    rw [Arithmetic.twice, add_mul, one_mul]
    constructor <;> intro h <;> linarith
  obtain ⟨x', y', z'⟩ := q
  obtain ⟨axis, offset⟩ := m
  cases axis with
  | x => simp [mirror, Halves, Axis.forall_iff, Point.coordinate, hhalf]
  | y => simp [mirror, Halves, Axis.forall_iff, Point.coordinate, hhalf, and_left_comm]
  | z => simp [mirror, Halves, Axis.forall_iff, Point.coordinate, hhalf, and_assoc, and_comm]

theorem Point.distance_eq_zero_iff (p q : Point ℝ) : p.distance q = 0 ↔ p = q := by
  rw [Point.distance, Point.length_sub, dist_eq_zero, Point.vector_injective.eq_iff]

/-! ## Headings -/

theorem Body.norm_heading : ‖a.heading‖ = 1 := a.pose.orientation.norm_direction

theorem Body.cosine_eq : a.direction.cosine b.direction = inner ℝ a.heading b.heading :=
  EulerAngles.cosine_direction _ _

theorem Body.angle_eq :
    a.direction.angle b.direction = InnerProductGeometry.angle a.heading b.heading :=
  Displacement.angle_eq a.pose.orientation.direction_ne_zero b.pose.orientation.direction_ne_zero

/-- Unit vectors whose product is as large as can be are equal or opposite. -/
theorem Body.abs_inner_heading_eq_one_iff :
    |inner ℝ a.heading b.heading| = 1 ↔ a.heading = b.heading ∨ a.heading = -b.heading := by
  rw [abs_eq zero_le_one, inner_eq_one_iff_of_norm_eq_one a.norm_heading b.norm_heading,
    inner_eq_neg_one_iff_of_norm_eq_one a.norm_heading b.norm_heading]

theorem degrees_eq_iff (x target : ℝ) :
    x * Scalar.radian - target = 0 ↔ x = target * Scalar.degree := by
  have hpi := Real.pi_ne_zero
  have hunit : (Scalar.radian : ℝ) * Scalar.degree = 1 := by
    show 180 / Real.pi * (Real.pi / 180) = 1
    field_simp
  rw [sub_eq_zero]
  constructor
  · rintro rfl
    rw [mul_assoc, hunit, mul_one]
  · rintro rfl
    rw [mul_assoc, mul_comm Scalar.degree, hunit, mul_one]

/-! ## Deviations -/

/-- The deviation of a relation is zero where the bodies have it, and nowhere else. -/
theorem Relation.deviation_eq_zero_iff (relation : Relation ℝ) :
    relation.deviation a b = 0 ↔ relation.Holds a b := by
  cases relation with
  | coincident => exact Point.distance_eq_zero_iff _ _
  | distance target =>
    show a.separation b - target = 0 ↔ _
    rw [sub_eq_zero, Body.separation_eq]
    rfl
  | parallel =>
    -- of unit vectors only those along one line have a product of one or minus one
    show |a.direction.cosine b.direction| - 1 = 0 ↔ _
    rw [sub_eq_zero, Body.cosine_eq]
    exact a.abs_inner_heading_eq_one_iff b
  | perpendicular =>
    show a.direction.cosine b.direction = 0 ↔ _
    rw [Body.cosine_eq, EuclideanSpace.inner_eq_star_dotProduct, star_trivial, dotProduct_comm]
    rfl
  | angle target =>
    show a.direction.angle b.direction * Scalar.radian - target = 0 ↔ _
    rw [degrees_eq_iff, Body.angle_eq]
    rfl
  | tangent =>
    show a.separation b - (a.radius + b.radius) = 0 ↔ _
    rw [sub_eq_zero, Body.separation_eq]
    rfl
  | symmetric plane =>
    show b.pose.position.distance (plane.mirror a.pose.position) = 0 ↔ _
    rw [Point.distance_eq_zero_iff, eq_comm]
    exact plane.mirror_eq_iff _ _

/-- Parallels deviate by at most one, and only downwards. -/
theorem Relation.deviation_parallel_mem : parallel.deviation a b ∈ Set.Icc (-1 : ℝ) 0 := by
  have hle : |inner ℝ a.heading b.heading| ≤ 1 := EulerAngles.abs_inner_direction_le _ _
  show |a.direction.cosine b.direction| - 1 ∈ _
  rw [Body.cosine_eq]
  constructor
  · linarith [abs_nonneg (inner ℝ a.heading b.heading)]
  · linarith

end Bodies

/-- Every direction is a unit vector; the deviation of a relation between two bodies is zero
exactly if the relation holds; parallels deviate by a number from minus one to zero; and
between directions the cosine is never one of those that stand in for a quotient. -/
theorem deviation_zero_iff_holds :
    (∀ e : EulerAngles ℝ, ‖e.direction.vector‖ = 1) ∧
    (∀ (relation : Relation ℝ) (a b : Body ℝ), relation.deviation a b = 0 ↔ relation.Holds a b) ∧
    (∀ a b : Body ℝ, Relation.parallel.deviation a b ∈ Set.Icc (-1 : ℝ) 0) ∧
    ∀ e f : EulerAngles ℝ, e.SureCosine f :=
  ⟨EulerAngles.norm_direction, fun relation a b => relation.deviation_eq_zero_iff a b,
    Relation.deviation_parallel_mem, EulerAngles.sureCosine⟩

end Joinery
