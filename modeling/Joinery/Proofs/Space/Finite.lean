import Joinery.Proofs.Scalar.Laws
import Joinery.Space.Orientation
/-!
# Finite places and directions

Places and orientations that are finite equal themselves. A length is finite only
if all coordinates are, and an angle that is not finite makes a direction that is
no direction: whatever is computed from it is not a number.
-/

namespace Joinery

open Arithmetic LawfulOrder LawfulArithmetic

theorem Point.isFinite_iff {α : Type} [Arithmetic α] {p : Point α} :
    p.isFinite = true ↔ ∀ x ∈ p.toList, Arithmetic.isFinite x = true := by
  simp [Point.isFinite, Point.toList, and_assoc]

variable {α : Type} [Scalar α]

theorem EulerAngles.isFinite_iff {e : EulerAngles α} :
    e.isFinite = true ↔ ∀ x ∈ e.toList, Arithmetic.isFinite x = true := by
  simp [EulerAngles.isFinite, EulerAngles.toList, and_assoc]

/-! ## Equal numbers -/

theorem Point.beq_iff {p q : Point α} :
    (p == q) = true ↔ (p.x == q.x) = true ∧ (p.y == q.y) = true ∧ (p.z == q.z) = true := by
  show (p.x == q.x && (p.y == q.y && p.z == q.z)) = true ↔ _
  rw [Bool.and_eq_true, Bool.and_eq_true]

theorem EulerAngles.beq_iff {e f : EulerAngles α} :
    (e == f) = true ↔
      (e.roll == f.roll) = true ∧ (e.pitch == f.pitch) = true ∧ (e.yaw == f.yaw) = true := by
  show (e.roll == f.roll && (e.pitch == f.pitch && e.yaw == f.yaw)) = true ↔ _
  rw [Bool.and_eq_true, Bool.and_eq_true]

theorem Point.beq_refl [LawfulOrder α] {p : Point α} (h : p.isFinite = true) :
    (p == p) = true := by
  have hp := Point.isFinite_iff.1 h
  refine beq_iff.2 ⟨?_, ?_, ?_⟩
  all_goals exact LawfulOrder.beq_refl (hp _ (by simp [toList]))

theorem EulerAngles.beq_refl [LawfulOrder α] {e : EulerAngles α} (h : e.isFinite = true) :
    (e == e) = true := by
  have he := EulerAngles.isFinite_iff.1 h
  refine beq_iff.2 ⟨?_, ?_, ?_⟩
  all_goals exact LawfulOrder.beq_refl (he _ (by simp [toList]))

/-! ## Lengths -/

/-- A displacement of finite length is finite. -/
theorem Displacement.isFinite_of_length [LawfulRoot α] {d : Displacement α}
    (h : Arithmetic.isFinite d.length = true) :
    Arithmetic.isFinite d.x = true ∧ Arithmetic.isFinite d.y = true ∧
      Arithmetic.isFinite d.z = true := by
  obtain ⟨hxy, hz⟩ := isFinite_add (LawfulRoot.isFinite_sqrt h)
  obtain ⟨hx, hy⟩ := isFinite_add hxy
  exact ⟨(isFinite_mul hx).1, (isFinite_mul hy).1, (isFinite_mul hz).1⟩

/-- Points a finite length apart are finite. -/
theorem Point.isFinite_of_distance [LawfulRoot α] {p q : Point α}
    (h : Arithmetic.isFinite (q - p).length = true) : p.isFinite = true ∧ q.isFinite = true := by
  obtain ⟨hx, hy, hz⟩ := Displacement.isFinite_of_length h
  obtain ⟨hqx, hpx⟩ := isFinite_sub hx
  obtain ⟨hqy, hpy⟩ := isFinite_sub hy
  obtain ⟨hqz, hpz⟩ := isFinite_sub hz
  simp [Point.isFinite, *]

/-! ## Directions -/

section Directions

variable [LawfulRoot α] {d e : Displacement α}

theorem Displacement.isNaN_length (h : isNaN d.x = true) : isNaN d.length = true :=
  LawfulRoot.isNaN_sqrt (isNaN_add (.inl (isNaN_add (.inl (isNaN_mul (.inl h))))))

theorem Displacement.isNaN_dot (h : isNaN d.x = true ∨ isNaN e.x = true) :
    isNaN (d.dot e) = true :=
  isNaN_add (.inl (isNaN_add (.inl (isNaN_mul h))))

theorem Displacement.isNaN_cosine (h : isNaN d.x = true ∨ isNaN e.x = true) :
    isNaN (d.cosine e) = true := by
  have hproduct : isNaN (d.length * e.length) = true := isNaN_mul (h.imp isNaN_length isNaN_length)
  have hratio : isNaN (d.dot e / (d.length * e.length)) = true := isNaN_div (.inr hproduct)
  unfold Displacement.cosine clamp
  dsimp only
  rw [if_neg (not_lt_of_isNaN (.inl hproduct)), if_neg (not_lt_of_isNaN (.inl hratio)),
    if_neg (not_lt_of_isNaN (.inr hratio))]
  exact hratio

variable [LawfulAngles α]

theorem Displacement.isNaN_angle (h : isNaN d.x = true ∨ isNaN e.x = true) :
    isNaN (d.angle e) = true :=
  LawfulAngles.isNaN_atan2 (.inr (isNaN_dot h))

/-- The first coordinate of a direction hangs on all three angles. -/
theorem EulerAngles.isNaN_direction {a : EulerAngles α} (h : a.isFinite = false) :
    isNaN a.direction.x = true := by
  unfold EulerAngles.isFinite at h
  rw [Bool.and_eq_false_iff, Bool.and_eq_false_iff] at h
  rcases h with (hroll | hpitch) | hyaw
  · have hsine := LawfulAngles.isNaN_sin hroll
    have hsecond : isNaN a.rotation.first.y = true := isNaN_sub (.inl (isNaN_mul (.inr hsine)))
    exact isNaN_add (.inl (isNaN_add (.inr (isNaN_mul (.inl hsecond)))))
  · have hfirst : isNaN a.rotation.first.x = true :=
      isNaN_mul (.inr (LawfulAngles.isNaN_cos hpitch))
    exact isNaN_add (.inl (isNaN_add (.inl (isNaN_mul (.inl hfirst)))))
  · have hfirst : isNaN a.rotation.first.x = true :=
      isNaN_mul (.inl (LawfulAngles.isNaN_cos hyaw))
    exact isNaN_add (.inl (isNaN_add (.inl (isNaN_mul (.inl hfirst)))))

end Directions

end Joinery
