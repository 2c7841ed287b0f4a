import Mathlib
import Joinery.Proofs.Dense.Entries
import Joinery.Proofs.Linkage.Acceptance
import Joinery.Proofs.Scalar.Exact
/-!
# Assemblies elsewhere

An assembly that is moved as a whole is the same to its constraints, as long as none
of them is about a plane that stays behind. Its linkage starts that far away, and the
states of the one are those of the other with all coordinates moved (`shiftState`).
A measured slope takes a step that grows with the coordinate, so it does hang on where
an assembly is; but what is measured hangs on angles only, and these stay.
-/

namespace Joinery

/-! ## Moving -/

section Shifts

variable {α : Type} [Arithmetic α]

def Point.shifted (p : Point α) (t : Displacement α) : Point α := p + t

def Pose.shifted (p : Pose α) (t : Displacement α) : Pose α :=
  { p with position := p.position.shifted t }

def Body.shifted (b : Body α) (t : Displacement α) : Body α := { b with pose := b.pose.shifted t }

def Component.shifted (part : Component α) (t : Displacement α) : Component α :=
  { part with position := part.position.shifted t }

/-- The assembly with all components moved along a displacement. -/
def Assembly.shifted (a : Assembly α) (t : Displacement α) : Assembly α :=
  { a with components := a.components.map (·.shifted t) }

/-- The linkage whose members start farther along a displacement. -/
def Linkage.shifted (L : Linkage α) (t : Displacement α) : Linkage α :=
  { L with members := L.members.map fun m => { m with start := m.start.shifted t } }

/-- How much variable `j` changes: by a coordinate of the displacement if it is one of
a position, and not at all if it is an angle. -/
def Layout.shift (l : Layout) (t : Displacement α) (j : Nat) : α := t.toList.getD (j % l.stride) 0

/-- The state with all positions moved along a displacement. -/
def Linkage.shiftState (L : Linkage α) (t : Displacement α) (s : Array α) : Array α :=
  s.mapIdx fun j x => x + L.layout.shift t j

@[simp]
theorem Linkage.size_shiftState (L : Linkage α) (t : Displacement α) (s : Array α) :
    (L.shiftState t s).size = s.size := by
  simp [shiftState]

/-- Whether a bond holds its ends to a plane in space. -/
def Bond.isMirror {ρ : Type} : Bond ρ α → Bool
  | pair (.symmetric _) _ _ => true
  | _ => false

omit [Arithmetic α] in
theorem Bond.isMirror_map {ρ σ : Type} (f : ρ → σ) (bond : Bond ρ α) :
    (bond.map f).isMirror = bond.isMirror := by
  cases bond with
  | fixed a => rfl
  | pair relation a b => cases relation <;> rfl

end Shifts

/-! ## What does not change -/

variable {t : Displacement ℝ}

/-- The way from one place to another is the same after both are moved. -/
theorem Point.shifted_sub_shifted (p q : Point ℝ) (t : Displacement ℝ) :
    (q.shifted t - p.shifted t : Displacement ℝ) = q - p := by
  show (⟨q.x + t.x - (p.x + t.x), q.y + t.y - (p.y + t.y), q.z + t.z - (p.z + t.z)⟩ :
    Displacement ℝ) = ⟨q.x - p.x, q.y - p.y, q.z - p.z⟩
  rw [add_sub_add_right_eq_sub, add_sub_add_right_eq_sub, add_sub_add_right_eq_sub]

theorem Body.separation_shifted (x y : Body ℝ) :
    (x.shifted t).separation (y.shifted t) = x.separation y :=
  congrArg Displacement.length (Point.shifted_sub_shifted x.pose.position y.pose.position t)

/-- Bodies that are moved together deviate as before. -/
theorem Bond.deviation_shifted {bond : Bond (Body ℝ) ℝ} (h : bond.isMirror = false) :
    (bond.map (·.shifted t)).deviation = bond.deviation := by
  cases bond with
  | fixed x => rfl
  | pair relation x y =>
    have hseparation := Body.separation_shifted (t := t) x y
    cases relation with
    | coincident => exact hseparation
    | distance target => exact congrArg (· - target) hseparation
    | parallel => rfl
    | perpendicular => rfl
    | angle target => rfl
    | tangent => exact congrArg (· - (x.radius + y.radius)) hseparation
    | symmetric plane => cases h

namespace Linkage

variable {L : Linkage ℝ} {s : Array ℝ}

theorem getD_shiftState {j : Nat} (hj : j < s.size) :
    (L.shiftState t s).getD j 0 = s.getD j 0 + L.layout.shift t j := by
  simp [shiftState, Array.getD, hj]

theorem Regular.shift_offset (h : L.Regular) {i k r : Nat} (hk : L.layout.offset? i = some k)
    (hr : r < L.layout.stride) : L.layout.shift t (k + r) = t.toList.getD r 0 := by
  obtain ⟨-, -, rfl⟩ := h.of_offset? hk
  rw [Layout.shift, Nat.mul_add_mod, Nat.mod_eq_of_lt hr]

/-- An angle does not move. -/
theorem Regular.shift_of_turns (h : L.Regular) {i j : Nat} (hj : L.layout.Turns i j) :
    L.layout.shift t j = 0 := by
  obtain ⟨k, hk, hle, hlt⟩ := hj
  obtain ⟨r, rfl⟩ := Nat.exists_eq_add_of_le (Nat.le_of_add_right_le hle)
  rw [h.shift_offset hk (by omega)]
  exact List.getD_eq_default _ _ (by simp [Displacement.toList]; omega)

theorem Regular.shifted (h : L.Regular) : (L.shifted t).Regular := by
  simpa [Regular, Linkage.shifted] using h

theorem startPose_shifted {i : Nat} (hi : i < L.members.size) :
    (L.shifted t).startPose i = (L.startPose i).shifted t := by
  simp [startPose, Linkage.shifted, hi]

/-- In a state that is moved every member is moved. -/
theorem Regular.pose_shifted (h : L.Regular) (hs : s.size = L.size) {i : Nat}
    (hi : i < L.members.size) :
    (L.shifted t).pose (L.shiftState t s) i = (L.pose s i).shifted t := by
  have hstart := startPose_shifted (t := t) hi
  have hlayout : (L.shifted t).layout = L.layout := rfl
  unfold pose
  rw [hlayout]
  cases hk : L.layout.offset? i with
  | none => exact hstart
  | some k =>
    have hle := h.offset_add_le hk
    have hvariable : ∀ r, r < L.layout.stride →
        (L.shiftState t s).getD (k + r) 0 = s.getD (k + r) 0 + t.toList.getD r 0 := by
      intro r hr
      rw [getD_shiftState (by omega), h.shift_offset hk hr]
    have hstride := L.layout.three_le_stride
    have hx := hvariable 0 (by omega)
    have hy := hvariable 1 (by omega)
    have hz := hvariable 2 (by omega)
    dsimp only
    cases hturning : L.layout.turning with
    | false =>
      rw [hstart]
      simp only [Nat.add_zero] at hx
      rw [hx, hy, hz]
      rfl
    | true =>
      have hsix : L.layout.stride = 6 := Layout.stride_of_turning hturning
      have hangle : ∀ r, 3 ≤ r → r < 6 → (L.shiftState t s).getD (k + r) 0 = s.getD (k + r) 0 := by
        intro r hr hlt
        rw [hvariable r (by omega),
          List.getD_eq_default _ _ (by simpa [Displacement.toList] using hr)]
        exact add_zero _
      simp only [Nat.add_zero] at hx
      rw [hx, hy, hz, hangle 3 (by omega) (by omega), hangle 4 (by omega) (by omega),
        hangle 5 (by omega) (by omega)]
      rfl

theorem Regular.body_shifted (h : L.Regular) (hs : s.size = L.size) {i : Nat}
    (hi : i < L.members.size) :
    (L.shifted t).body (L.shiftState t s) i = (L.body s i).shifted t := by
  rw [body, h.pose_shifted hs hi]
  simp [body, Linkage.shifted, Body.shifted, hi]

/-- What does not hold its ends to a plane deviates as before. -/
theorem Regular.deviation_shifted (h : L.Regular) (hs : s.size = L.size) {con : Constraint Nat ℝ}
    (hends : ∀ i ∈ con.bond.ends, i < L.members.size) (hmirror : con.bond.isMirror = false) :
    (L.shifted t).deviation (L.shiftState t s) con = L.deviation s con := by
  have hbodies : con.bond.map ((L.shifted t).body (L.shiftState t s)) =
      (con.bond.map (L.body s)).map (·.shifted t) := by
    rw [Bond.map_map]
    exact Bond.map_congr fun i hi => h.body_shifted hs (hends i hi)
  unfold deviation
  rw [hbodies, Bond.deviation_shifted (by rw [Bond.isMirror_map]; exact hmirror)]

/-- Moving a state and then one of its angles is moving them the other way round. -/
theorem shiftState_setIfInBounds {j : Nat} (hj : L.layout.shift t j = 0) (x : ℝ) :
    L.shiftState t (s.setIfInBounds j x) = (L.shiftState t s).setIfInBounds j x := by
  have hx : x + L.layout.shift t j = x := by
    rw [hj]
    exact add_zero x
  simp [shiftState, hx]

/-- A measured slope is the same elsewhere: if the variable is a coordinate then what is
measured does not read it, wherever the step that grows with it leads. -/
theorem Regular.measuredSlope_shifted (h : L.Regular) (hs : s.size = L.size)
    {con : Constraint Nat ℝ} (hends : ∀ i ∈ con.bond.ends, i < L.members.size)
    (hdirections : con.bond.isFixed = true ∨ con.bond.isDirectional = true)
    (hmirror : con.bond.isMirror = false) (step : ℝ) {j : Nat} (hj : j < L.size) :
    (L.shifted t).measuredSlope (L.shiftState t s) step con j = L.measuredSlope s step con j := by
  by_cases hread : con.bond.Reads L.layout j
  · obtain ⟨hfree, i, -, hturns⟩ := Bond.reads_iff.1 hread
    have hdirectional : con.bond.isDirectional = true :=
      hdirections.resolve_left (by simp [hfree])
    rw [if_pos hdirectional] at hturns
    have hstill : L.layout.shift t j = 0 := h.shift_of_turns hturns
    have hvalue : (L.shiftState t s).getD j 0 = s.getD j 0 := by
      rw [getD_shiftState (by omega), hstill]
      exact add_zero _
    unfold measuredSlope
    dsimp only
    rw [hvalue, ← shiftState_setIfInBounds hstill, ← shiftState_setIfInBounds hstill,
      h.deviation_shifted (by simpa using hs) hends hmirror,
      h.deviation_shifted (by simpa using hs) hends hmirror]
  · have hread' : ¬con.bond.Reads (L.shifted t).layout j := hread
    rw [Exact.blank_iff.1 (measuredSlope_blank (.of_not_reads hread) step),
      Exact.blank_iff.1 (measuredSlope_blank (.of_not_reads hread') step)]

theorem Regular.heading?_shifted (h : L.Regular) (hs : s.size = L.size) {i i' : Nat}
    (hi : i < L.members.size) (hi' : i' < L.members.size) (apart : Bool) :
    (L.shifted t).heading? (L.shiftState t s) i i' apart = L.heading? s i i' apart := by
  have hway : (((L.shifted t).pose (L.shiftState t s) i').position -
      ((L.shifted t).pose (L.shiftState t s) i).position : Displacement ℝ) =
        (L.pose s i').position - (L.pose s i).position := by
    rw [h.pose_shifted hs hi, h.pose_shifted hs hi']
    exact Point.shifted_sub_shifted _ _ _
  unfold heading?
  rw [hway]

/-- A row of slopes is the same elsewhere. -/
theorem Regular.slopeRow_shifted (h : L.Regular) (hs : s.size = L.size) {con : Constraint Nat ℝ}
    (hends : ∀ i ∈ con.bond.ends, i < L.members.size) (hmirror : con.bond.isMirror = false)
    (step : ℝ) : (L.shifted t).slopeRow (L.shiftState t s) step con = L.slopeRow s step con := by
  have hmeasured : con.bond.isFixed = true ∨ con.bond.isDirectional = true →
      (L.shifted t).measuredRow (L.shiftState t s) step con = L.measuredRow s step con := by
    intro hdirections
    refine congrArg Array.ofFn (funext fun j => ?_)
    rw [h.measuredSlope_shifted hs hends hdirections hmirror step j.isLt]
    rfl
  obtain ⟨id, bond, tolerance, weight⟩ := con
  cases bond with
  | fixed i => exact hmeasured (.inl rfl)
  | pair relation i i' =>
    have hseparation : ∀ apart, (L.shifted t).separationRow (L.shiftState t s) weight i i' apart =
        L.separationRow s weight i i' apart := by
      intro apart
      unfold separationRow
      rw [h.heading?_shifted hs (hends i (by simp [Bond.ends])) (hends i' (by simp [Bond.ends]))]
      rfl
    cases relation with
    | coincident => exact hseparation false
    | distance => exact hseparation true
    | tangent => exact hseparation true
    | parallel => exact hmeasured (.inr rfl)
    | perpendicular => exact hmeasured (.inr rfl)
    | angle => exact hmeasured (.inr rfl)
    | symmetric => cases hmirror

theorem coordinates_shifted (turning : Bool) (p : Pose ℝ) (r : Nat) :
    r < freedomOfPart turning → (coordinates turning (p.shifted t)).getD r 0 =
      (coordinates turning p).getD r 0 + t.toList.getD r 0 := by
  intro hr
  match r with
  | 0 | 1 | 2 => rfl
  | r + 3 =>
    cases turning with
    | false => exact absurd hr (by simp [freedomOfPart])
    | true => exact (add_zero _).symm

/-- The state that a shifted linkage starts from is the shifted initial state. -/
theorem Regular.initialState_shifted (h : L.Regular) :
    (L.shifted t).initialState = L.shiftState t L.initialState := by
  have hsize := h.size_initialState
  refine Dense.ext_getD (n := L.size) h.shifted.size_initialState (by simpa using hsize) ?_
  intro j hj
  obtain ⟨i, k, r, hk, hr, rfl⟩ := h.exists_offset hj
  have hk' : (L.shifted t).layout.offset? i = some k := hk
  rw [h.shifted.getD_initialState hk' hr, getD_shiftState (by rwa [hsize]),
    h.getD_initialState hk hr, h.shift_offset hk hr, startPose_shifted (h.of_offset? hk).1]
  exact coordinates_shifted _ _ r hr

end Linkage

/-! ## Assemblies -/

variable {a : Assembly ℝ} {initial : PositionMap ℝ} {turning : Bool}

namespace Assembly

theorem problems_shifted (a : Assembly ℝ) (t : Displacement ℝ) :
    (a.shifted t).problems = a.problems := by
  have hcomponents : ∀ (l : List (Component ℝ)) (seen : List String),
      Component.problems seen (l.map (·.shifted t)) = Component.problems seen l := by
    intro l
    induction l with
    | nil => intro seen; rfl
    | cons part rest ih =>
      intro seen
      rw [List.map_cons, Component.problems, Component.problems, ih]
      rfl
  have hids : (a.shifted t).components.map (·.id) = a.components.map (·.id) := by
    simp [shifted, Component.shifted, Function.comp_def]
  unfold problems
  rw [hids]
  simp only [shifted, hcomponents, List.isEmpty_map]

theorem linkage_shifted (a : Assembly ℝ) (initial : PositionMap ℝ) (turning : Bool)
    (t : Displacement ℝ) :
    (a.shifted t).linkage (initial.map (·.shifted t)) turning =
      (a.linkage initial turning).shifted t := by
  have hmember : ∀ part : Component ℝ, (part.shifted t).member (initial.map (·.shifted t)) =
      { part.member initial with start := (part.member initial).start.shifted t } := by
    intro part
    have hposition : ((initial.map (·.shifted t)).get? part.id).getD (part.position.shifted t) =
        ((initial.get? part.id).getD part.position).shifted t := by
      rw [IdMap.get?_map]
      cases initial.get? part.id <;> rfl
    exact congrArg (fun p => Member.mk part.id ⟨p, part.orientation⟩ part.radius) hposition
  simp only [linkage, shifted, Linkage.shifted, List.map_map, Function.comp_def, hmember,
    List.length_map]
  simp [Component.shifted]

end Assembly

end Joinery
