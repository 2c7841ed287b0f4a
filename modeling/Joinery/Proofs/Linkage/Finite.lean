import Joinery.Proofs.Linkage.Reads
import Joinery.Proofs.Space.Finite
/-!
# What a finite deviation tells

A sum is finite only if all its terms are, so a finite length leaves no entry
that is not. From there it goes down to the state: a deviation is finite only if
every variable that it reads is.
-/

namespace Joinery

open Arithmetic LawfulOrder LawfulArithmetic

/-! ## Lengths -/

namespace Dense

variable {α : Type}

theorem isFinite_foldl_add [Arithmetic α] [LawfulArithmetic α] {l : List α} {first : α}
    (h : isFinite (l.foldl (· + ·) first) = true) :
    isFinite first = true ∧ ∀ x ∈ l, isFinite x = true := by
  induction l generalizing first with
  | nil => exact ⟨h, by simp⟩
  | cons x rest ih =>
    obtain ⟨hsum, hrest⟩ := ih h
    obtain ⟨hfirst, hx⟩ := isFinite_add hsum
    exact ⟨hfirst, List.forall_mem_cons.2 ⟨hx, hrest⟩⟩

/-- The entries of a vector of finite length are finite. -/
theorem isFinite_of_norm [Scalar α] [LawfulRoot α] {v : Array α} (h : isFinite (norm v) = true) :
    ∀ x ∈ v, isFinite x = true := by
  intro x hx
  have hdot : isFinite (dot v v) = true := LawfulRoot.isFinite_sqrt h
  rw [dot, ← Array.foldl_toList, Array.toList_zipWith, List.zipWith_self] at hdot
  exact (isFinite_mul ((isFinite_foldl_add hdot).2 _
    (List.mem_map_of_mem (Array.mem_toList_iff.2 hx)))).1

end Dense

/-! ## Deviations -/

variable {α : Type} [Scalar α] [LawfulRoot α] {relation : Relation α} {a b : Body α}

theorem MirrorPlane.isFinite_of_mirror {plane : MirrorPlane α} {p : Point α}
    (h : (plane.mirror p).isFinite = true) : p.isFinite = true := by
  obtain ⟨axis, offset⟩ := plane
  rw [Point.isFinite, Bool.and_eq_true, Bool.and_eq_true] at h ⊢
  obtain ⟨⟨hx, hy⟩, hz⟩ := h
  cases axis with
  | x => exact ⟨⟨(isFinite_sub hx).2, hy⟩, hz⟩
  | y => exact ⟨⟨hx, (isFinite_sub hy).2⟩, hz⟩
  | z => exact ⟨⟨hx, hy⟩, (isFinite_sub hz).2⟩

/-- A finite deviation between positions is one between finite positions. -/
theorem Relation.isFinite_positions (h : relation.isDirectional = false)
    (hfinite : isFinite (relation.deviation a b) = true) :
    a.pose.position.isFinite = true ∧ b.pose.position.isFinite = true := by
  cases relation with
  | parallel => cases h
  | perpendicular => cases h
  | angle => cases h
  | coincident => exact Point.isFinite_of_distance hfinite
  | distance => exact Point.isFinite_of_distance (isFinite_sub hfinite).1
  | tangent => exact Point.isFinite_of_distance (isFinite_sub hfinite).1
  | symmetric plane =>
    obtain ⟨himage, hb⟩ := (Point.isFinite_of_distance hfinite).symm
    exact ⟨MirrorPlane.isFinite_of_mirror himage, hb⟩

variable [LawfulAngles α]

/-- A deviation between directions is not finite if an angle is not: the
direction is no direction then. -/
theorem Relation.isFinite_orientations (h : relation.isDirectional = true)
    (hfinite : isFinite (relation.deviation a b) = true) :
    a.pose.orientation.isFinite = true ∧ b.pose.orientation.isFinite = true := by
  -- contrapositive: one broken direction breaks cosine and angle, and so the deviation
  have hnan : ¬(isNaN a.direction.x = true ∨ isNaN b.direction.x = true) := by
    intro hnan
    refine Bool.false_ne_true ((isFinite_of_isNaN ?_).symm.trans hfinite)
    cases relation with
    | parallel => exact isNaN_sub (.inl (isNaN_abs (Displacement.isNaN_cosine hnan)))
    | perpendicular => exact Displacement.isNaN_cosine hnan
    | angle target => exact isNaN_sub (.inl (isNaN_mul (.inl (Displacement.isNaN_angle hnan))))
    | coincident => cases h
    | distance => cases h
    | tangent => cases h
    | symmetric => cases h
  constructor
  · cases ha : a.pose.orientation.isFinite with
    | true => rfl
    | false => exact absurd (.inl (EulerAngles.isNaN_direction ha)) hnan
  · cases hb : b.pose.orientation.isFinite with
    | true => rfl
    | false => exact absurd (.inr (EulerAngles.isNaN_direction hb)) hnan

/-! ## States -/

namespace Linkage

variable {L : Linkage α} {s : Array α} {i j : Nat}

omit [LawfulRoot α] [LawfulAngles α] in
theorem isFinite_of_places (h : L.layout.Places i j)
    (hfinite : (L.pose s i).position.isFinite = true) : isFinite (s.getD j 0) = true := by
  obtain ⟨k, hk, hle, hlt⟩ := h
  unfold pose at hfinite
  rw [hk, Point.isFinite_iff] at hfinite
  obtain rfl | rfl | rfl : j = k ∨ j = k + 1 ∨ j = k + 2 := by omega
  all_goals exact hfinite _ (by simp [Point.toList])

omit [LawfulRoot α] [LawfulAngles α] in
theorem isFinite_of_turns (h : L.layout.Turns i j)
    (hfinite : (L.pose s i).orientation.isFinite = true) : isFinite (s.getD j 0) = true := by
  obtain ⟨k, hk, hle, hlt⟩ := h
  unfold Layout.stride freedomOfPart at hlt
  unfold pose at hfinite
  rw [hk] at hfinite
  cases hturning : L.layout.turning with
  | false =>
    simp only [hturning, Bool.false_eq_true, if_false] at hlt
    omega
  | true =>
    simp only [hturning, if_true] at hlt hfinite
    rw [EulerAngles.isFinite_iff] at hfinite
    obtain rfl | rfl | rfl : j = k + 3 ∨ j = k + 4 ∨ j = k + 5 := by omega
    all_goals exact hfinite _ (by simp [EulerAngles.toList])

omit [LawfulRoot α] [LawfulAngles α] in
/-- A member has a finite place if the coordinates of the state are finite. -/
theorem isFinite_position (hstart : (L.startPose i).position.isFinite = true)
    (h : ∀ j, L.layout.Places i j → isFinite (s.getD j 0) = true) :
    (L.pose s i).position.isFinite = true := by
  unfold pose
  cases hk : L.layout.offset? i with
  | none => exact hstart
  | some k =>
    have hcoordinate : ∀ t, t < 3 → isFinite (s.getD (k + t) 0) = true :=
      fun t ht => h _ ⟨k, hk, by omega, by omega⟩
    simp only [Point.isFinite, Bool.and_eq_true]
    exact ⟨⟨hcoordinate 0 (by omega), hcoordinate 1 (by omega)⟩, hcoordinate 2 (by omega)⟩

omit [LawfulRoot α] [LawfulAngles α] in
/-- A member has a finite orientation if the angles of the state are finite. -/
theorem isFinite_orientation (hstart : (L.startPose i).orientation.isFinite = true)
    (h : ∀ j, L.layout.Turns i j → isFinite (s.getD j 0) = true) :
    (L.pose s i).orientation.isFinite = true := by
  unfold pose
  cases hk : L.layout.offset? i with
  | none => exact hstart
  | some k =>
    dsimp only
    split
    case isFalse => exact hstart
    case isTrue hturning =>
      have hstride : L.layout.stride = 6 := Layout.stride_of_turning hturning
      have hangle : ∀ t, t < 3 → isFinite (s.getD (k + (3 + t)) 0) = true :=
        fun t ht => h (k + (3 + t)) ⟨k, hk, by omega, by omega⟩
      simp only [EulerAngles.isFinite, Bool.and_eq_true]
      exact ⟨⟨hangle 0 (by omega), hangle 1 (by omega)⟩, hangle 2 (by omega)⟩

/-- What a constraint with a finite deviation reads is finite. -/
theorem isFinite_of_reads {c : Constraint Nat α} (h : c.bond.Reads L.layout j)
    (hfinite : isFinite (L.deviation s c) = true) : isFinite (s.getD j 0) = true := by
  obtain ⟨id, bond, tolerance, weight⟩ := c
  replace hfinite := (isFinite_mul hfinite).2
  cases bond with
  | fixed a => cases h
  | pair relation a b =>
    unfold Bond.Reads at h
    cases hdirectional : relation.isDirectional with
    | true =>
      obtain ⟨ha, hb⟩ := Relation.isFinite_orientations hdirectional hfinite
      simp only [hdirectional, if_true] at h
      exact h.elim (isFinite_of_turns · ha) (isFinite_of_turns · hb)
    | false =>
      obtain ⟨ha, hb⟩ := Relation.isFinite_positions hdirectional hfinite
      simp only [hdirectional, Bool.false_eq_true, if_false] at h
      exact h.elim (isFinite_of_places · ha) (isFinite_of_places · hb)

/-- Where the length of the deviations is finite, so is every variable that some
constraint reads. -/
theorem isFinite_of_norm_deviations {c : Constraint Nat α} (hc : c ∈ L.constraints)
    (h : c.bond.Reads L.layout j) (hfinite : isFinite (Dense.norm (L.deviations s)) = true) :
    isFinite (s.getD j 0) = true := by
  refine isFinite_of_reads h (Dense.isFinite_of_norm hfinite _ ?_)
  rw [deviations, List.mem_toArray]
  exact List.mem_map_of_mem hc

end Linkage

end Joinery
