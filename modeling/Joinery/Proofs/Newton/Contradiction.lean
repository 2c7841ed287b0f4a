import Mathlib
import Joinery.Proofs.Linkage.Lookup
import Joinery.Proofs.Newton.Convergence
import Joinery.Proofs.Newton.Totality
/-!
# Contradictions do not converge

Distances, coincidences and tangencies hold the separation of two components to a
number, and angles hold the angle between them to one (`Assembly.demand?`). Neither
changes when the components change places. So two constraints that ask the same two
components for numbers too far apart cannot both be near them in any state, and one
of their deviations keeps the error from falling below the tolerance.
-/

namespace Joinery

variable {α : Type} [Scalar α]

/-! ## What constraints ask for -/

/-- What can be measured between two bodies. -/
inductive Measure
  | separation
  | angle
deriving Repr, DecidableEq

/-- The number that is measured, for angles in degrees. -/
def Measure.between (measure : Measure) (x y : Body α) : α :=
  match measure with
  | separation => x.separation y
  | angle => x.direction.angle y.direction * Scalar.radian

/-- What a relation measures and the number it asks for, between bodies whose radii
make `radii` together. -/
def Relation.demand? (radii : α) : Relation α → Option (Measure × α)
  | coincident => some (.separation, 0)
  | distance target => some (.separation, target)
  | tangent => some (.separation, radii)
  | angle target => some (.angle, target)
  | parallel | perpendicular | symmetric _ => none

namespace Assembly

/-- The radius of the component with the identifier. -/
def radiusOf (a : Assembly α) (id : String) : α := ((a.component? id).map (·.radius)).getD 0

/-- What a bond measures between two components and the number it asks for. -/
def demand? (a : Assembly α) : Bond String α → Option (Measure × α)
  | .fixed _ => none
  | .pair relation x y => relation.demand? (a.radiusOf x + a.radiusOf y)

theorem radius_body (a : Assembly α) (initial : PositionMap α) (turning : Bool) (s : Array α)
    (id : String) :
    ((a.linkage initial turning).body s ((a.components.map (·.id)).idxOf id)).radius =
      a.radiusOf id := by
  rw [Linkage.body, getElem?_members, ← component?_eq, Option.map_map]
  rfl

end Assembly

/-! ## Exact numbers -/

section Exact

theorem Body.separation_comm (x y : Body ℝ) : x.separation y = y.separation x := by
  have hsquares : ∀ p q : Point ℝ, (q - p).lengthSquared = (p - q).lengthSquared := by
    intro p q
    show (q.x - p.x) * (q.x - p.x) + (q.y - p.y) * (q.y - p.y) + (q.z - p.z) * (q.z - p.z) =
      (p.x - q.x) * (p.x - q.x) + (p.y - q.y) * (p.y - q.y) + (p.z - q.z) * (p.z - q.z)
    ring
  exact congrArg Real.sqrt (hsquares x.pose.position y.pose.position)

theorem Displacement.angle_comm (a b : Displacement ℝ) : a.angle b = b.angle a := by
  have hcross : (a.cross b).lengthSquared = (b.cross a).lengthSquared := by
    show (a.y * b.z - a.z * b.y) * (a.y * b.z - a.z * b.y) +
        (a.z * b.x - a.x * b.z) * (a.z * b.x - a.x * b.z) +
        (a.x * b.y - a.y * b.x) * (a.x * b.y - a.y * b.x) =
      (b.y * a.z - b.z * a.y) * (b.y * a.z - b.z * a.y) +
        (b.z * a.x - b.x * a.z) * (b.z * a.x - b.x * a.z) +
        (b.x * a.y - b.y * a.x) * (b.x * a.y - b.y * a.x)
    ring
  have hdot : a.dot b = b.dot a := by
    show a.x * b.x + a.y * b.y + a.z * b.z = b.x * a.x + b.y * a.y + b.z * a.z
    ring
  unfold angle length
  rw [hcross, hdot]

/-- The same is measured whichever body stands first. -/
theorem Measure.between_comm (measure : Measure) (x y : Body ℝ) :
    measure.between x y = measure.between y x := by
  cases measure with
  | separation => exact Body.separation_comm x y
  | angle => exact congrArg (· * Scalar.radian) (Displacement.angle_comm x.direction y.direction)

/-- A relation deviates by what is measured less what it asks for. -/
theorem Relation.deviation_of_demand {relation : Relation ℝ} {x y : Body ℝ} {measure : Measure}
    {t : ℝ} (h : relation.demand? (x.radius + y.radius) = some (measure, t)) :
    relation.deviation x y = measure.between x y - t := by
  cases relation <;> cases h
  case coincident => exact (sub_zero _).symm
  all_goals rfl

variable {a : Assembly ℝ} {measure : Measure}

/-- The number that is measured between two components in a state of a linkage. -/
noncomputable def Assembly.measured (a : Assembly ℝ) (initial : PositionMap ℝ) (turning : Bool)
    (s : Array ℝ) (measure : Measure) (x y : String) : ℝ :=
  let body (id : String) :=
    (a.linkage initial turning).body s ((a.components.map (·.id)).idxOf id)
  measure.between (body x) (body y)

/-- In every state a constraint deviates by what is measured between its ends less what
it asks for, times its weight. -/
theorem Constraint.deviation_of_demand {con : Constraint String ℝ} {t : ℝ}
    (h : a.demand? con.bond = some (measure, t)) (initial : PositionMap ℝ) (turning : Bool)
    (s : Array ℝ) :
    ∃ x y, con.bond.ends = [x, y] ∧
      (a.linkage initial turning).deviation s (con.linked (a.components.map (·.id))) =
        con.weight * (a.measured initial turning s measure x y - t) := by
  cases hbond : con.bond with
  | fixed x => rw [hbond] at h; cases h
  | pair relation x y =>
    rw [hbond] at h
    refine ⟨x, y, rfl, ?_⟩
    rw [Linkage.deviation, linked, hbond]
    refine congrArg (con.weight * ·) (Relation.deviation_of_demand ?_)
    rw [Assembly.radius_body, Assembly.radius_body]
    exact h

/-- No number is near to two numbers that are far apart. -/
theorem not_near_both {v s t w₁ w₂ tolerance : ℝ} (hw₁ : 0 < w₁) (hw₂ : 0 < w₂)
    (hfar : tolerance * (1 / w₁ + 1 / w₂) ≤ |s - t|) (hs : |w₁ * (v - s)| < tolerance)
    (ht : |w₂ * (v - t)| < tolerance) : False := by
  have hnear : ∀ {w u : ℝ}, 0 < w → |w * (v - u)| < tolerance → |v - u| < tolerance * (1 / w) := by
    intro w u hw hlt
    rw [abs_mul, abs_of_pos hw] at hlt
    rw [mul_one_div]
    exact (lt_div_iff₀' hw).2 hlt
  have hlt : |s - t| < tolerance * (1 / w₁ + 1 / w₂) := calc
    |s - t| ≤ |s - v| + |v - t| := abs_sub_le s v t
    _ = |v - s| + |v - t| := by rw [abs_sub_comm s v]
    _ < tolerance * (1 / w₁) + tolerance * (1 / w₂) := add_lt_add (hnear hw₁ hs) (hnear hw₂ ht)
    _ = tolerance * (1 / w₁ + 1 / w₂) := (mul_add _ _ _).symm
  exact absurd hfar (not_le.2 hlt)

end Exact

namespace Newton

section Solves

variable [Readout ℝ] {c : Settings ℝ} {a : Assembly ℝ} {initial : PositionMap ℝ} {o : Outcome ℝ}

/-- An outcome has the deviation of every constraint in one state. -/
theorem deviation_mem_of_solve (h : solve c a initial = .ok o) :
    ∃ s, ∀ con ∈ a.constraints,
      (a.linkage initial c.turning).deviation s (con.linked (a.components.map (·.id))) ∈
        o.deviations.toList := by
  obtain ⟨last, -, rfl⟩ := solve_eq_ok h
  exact ⟨last.best, fun con hcon => List.mem_map_of_mem (List.mem_map_of_mem hcon)⟩

/-- Where two constraints measure the same between the same two components, in either
order, and ask for numbers that are farther apart than the tolerance lets both of them
be missed, no solve converges. -/
theorem contradiction_never_converges (c : Settings ℝ) (a : Assembly ℝ) (initial : PositionMap ℝ)
    (o : Outcome ℝ) (h : solve c a initial = .ok o) (first second : Constraint String ℝ)
    (hfirst : first ∈ a.constraints) (hsecond : second ∈ a.constraints)
    (hends : second.bond.ends = first.bond.ends ∨ second.bond.ends = first.bond.ends.reverse)
    (measure : Measure) (s t : ℝ) (hs : a.demand? first.bond = some (measure, s))
    (ht : a.demand? second.bond = some (measure, t))
    (hfar : c.tolerance * (1 / first.weight + 1 / second.weight) ≤ |s - t|) :
    o.converged = false ∧ o.status ≠ .converged := by
  have hnever : ¬o.converged = true := by
    intro hconverged
    obtain ⟨hrange, hwell, -, -⟩ := solve_eq_ok_iff.1 h
    have hpositive : ∀ con ∈ a.constraints, 0 < con.weight := fun con hcon =>
      ((Assembly.wellFormed_iff_inOrder.1 hwell).numbers con hcon).weight.2
    obtain ⟨state, hstate⟩ := deviation_mem_of_solve h
    have hnear := abs_lt_of_converged h hconverged
    obtain ⟨x, y, hxy, hx⟩ := Constraint.deviation_of_demand hs initial c.turning state
    obtain ⟨x', y', hxy', hy⟩ := Constraint.deviation_of_demand ht initial c.turning state
    -- the second constraint measures the number that the first one does
    have hsame : a.measured initial c.turning state measure x' y' =
        a.measured initial c.turning state measure x y := by
      rw [hxy, hxy'] at hends
      rcases hends with hends | hends <;> cases hends
      · rfl
      · exact measure.between_comm _ _
    have hnear₁ := hnear _ (hstate first hfirst)
    have hnear₂ := hnear _ (hstate second hsecond)
    rw [hx] at hnear₁
    rw [hy, hsame] at hnear₂
    exact not_near_both (hpositive first hfirst) (hpositive second hsecond) hfar hnear₁ hnear₂
  exact ⟨Bool.eq_false_iff.2 hnever, fun hstatus => hnever ((converged_eq h).2 hstatus)⟩

end Solves

/-- Two components with radii, and two constraints that hold them against each other's
order. -/
noncomputable def quarrel (first second : Relation ℝ) : Assembly ℝ where
  metadata := ⟨⟨0⟩, "quarrel", 1, ⟨⟨2000, 1, 1⟩, 0, 0⟩, ⟨⟨2000, 1, 1⟩, 0, 0⟩⟩
  components := [
    ⟨"base", .origin, .identity, .ofList [("radius", 1)]⟩,
    ⟨"arm", .origin, .identity, .ofList [("radius", 1)]⟩]
  constraints := [
    ⟨"claim", .pair first "base" "arm", none, 1⟩,
    ⟨"reply", .pair second "arm" "base", none, 1⟩]

theorem radius_ofList (id : String) (position : Point ℝ) (orientation : EulerAngles ℝ) (r : ℝ) :
    (⟨id, position, orientation, .ofList [("radius", r)]⟩ : Component ℝ).radius = r := by
  simp [Component.radius, Component.radiusKey, IdMap.ofList]

theorem wellFormed_quarrel {first second : Relation ℝ} (hfirst : first.defect? = none)
    (hsecond : second.defect? = none) : (quarrel first second).WellFormed where
  components_nodup := by simp [quarrel]
  radius_ok := by simp [quarrel, Component.radiusProblem?, radius_ofList]
  constraints_nodup := by simp [quarrel]
  ends_known := by simp [quarrel, Bond.ends]
  numbers_ok := by
    simp [quarrel, Constraint.defect?, Constraint.defect?.ofBond, hfirst, hsecond]

theorem exists_solve_quarrel [Readout ℝ] (first second : Relation ℝ)
    (hfirst : first.defect? = none) (hsecond : second.defect? = none) :
    ∃ o, solve coarse (quarrel first second) .empty = .ok o :=
  solve_of_finite Exact.isFinite_eq (Settings.check_eq_ok_iff.2 inRange_coarse)
    (wellFormed_quarrel hfirst hsecond) .empty

/-- Components that should touch and be farther apart than their radii, and components
that should point the same way and at right angles. -/
theorem contradiction_never_converges_quarrel :
    (∀ [Readout ℝ], ∃ o, solve coarse (quarrel .tangent (.distance 4)) .empty = .ok o ∧
      o.converged = false ∧ o.status ≠ .converged) ∧
    ∀ [Readout ℝ], ∃ o, solve coarse (quarrel (.angle 0) (.angle 90)) .empty = .ok o ∧
      o.converged = false ∧ o.status ≠ .converged := by
  constructor
  · intro _
    obtain ⟨o, ho⟩ := exists_solve_quarrel .tangent (.distance 4) rfl (by simp [Relation.defect?])
    have hbase : (quarrel .tangent (.distance 4)).radiusOf "base" = 1 :=
      radius_ofList "base" .origin .identity 1
    have harm : (quarrel .tangent (.distance 4)).radiusOf "arm" = 1 :=
      radius_ofList "arm" .origin .identity 1
    have htouch : (quarrel .tangent (.distance 4)).demand? (.pair .tangent "base" "arm") =
        some (.separation, 2) := by
      rw [Assembly.demand?, hbase, harm, Relation.demand?]
      norm_num
    exact ⟨o, ho, contradiction_never_converges coarse _ .empty o ho _ _ List.mem_cons_self
      (List.mem_cons_of_mem _ List.mem_cons_self) (.inr rfl) .separation 2 4 htouch rfl
      (by norm_num [coarse])⟩
  · intro _
    obtain ⟨o, ho⟩ := exists_solve_quarrel (.angle 0) (.angle 90) (by simp [Relation.defect?])
      (by simp [Relation.defect?])
    exact ⟨o, ho, contradiction_never_converges coarse _ .empty o ho _ _ List.mem_cons_self
      (List.mem_cons_of_mem _ List.mem_cons_self) (.inr rfl) .angle 0 90 rfl rfl
      (by norm_num [coarse])⟩

end Newton

end Joinery
