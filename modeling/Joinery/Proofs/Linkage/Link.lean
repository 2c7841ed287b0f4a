import Joinery.Linkage.Basic
import Joinery.Proofs.Assembly.Problems
import Joinery.Proofs.Checked
/-!
# What a linkage is made of

`Assembly.link?` looks up one thing after the other and can stop at each. Where
it does not, the linkage is the one that `Assembly.linkage` writes down at once:
the members are the components, and the constraints have the places of their
ends for identifiers.
-/

namespace Joinery

variable {α : Type}

/-! ## Constraints -/

namespace Bond

variable {ρ σ : Type} (f : ρ → σ) (bond : Bond ρ α)

@[simp]
theorem isFixed_map : (bond.map f).isFixed = bond.isFixed := by cases bond <;> rfl

@[simp]
theorem isDirectional_map : (bond.map f).isDirectional = bond.isDirectional := by
  cases bond <;> rfl

@[simp]
theorem ends_map : (bond.map f).ends = bond.ends.map f := by cases bond <;> rfl

end Bond

/-- Looking up ends that are there finds what each is. -/
theorem Bond.traverse_eq_ok {ρ σ ε : Type} {f : ρ → Except ε σ} {g : ρ → σ} {bond : Bond ρ α}
    (h : ∀ x ∈ bond.ends, f x = .ok (g x)) : bond.traverse f = .ok (bond.map g) := by
  cases bond with
  | fixed x =>
    rw [traverse, h x (by simp [ends])]
    rfl
  | pair relation x y =>
    rw [traverse, h x (by simp [ends]), h y (by simp [ends])]
    rfl

theorem indexOf?_eq_ok {ids : List String} {id : String} (h : id ∈ ids) :
    (indexOf? ids id : Except (Failure α) Nat) = .ok (ids.idxOf id) := by
  have hfind : ids.findIdx? (· == id) = some (ids.idxOf id) :=
    List.findIdx?_eq_some_iff_findIdx_eq.2 ⟨List.idxOf_lt_length_iff.2 h, rfl⟩
  rw [indexOf?, hfind]

/-- The constraint with the places of its ends. -/
def Constraint.linked (ids : List String) (c : Constraint String α) : Constraint Nat α :=
  ⟨c.id, c.bond.map ids.idxOf, c.tolerance, c.weight⟩

theorem Constraint.link?_eq_ok {ids : List String} {c : Constraint String α}
    (h : ∀ id ∈ c.bond.ends, id ∈ ids) :
    (c.link? ids : Except (Failure α) _) = .ok (c.linked ids) := by
  rw [link?, Bond.traverse_eq_ok fun id hid => indexOf?_eq_ok (h id hid)]
  rfl

/-! ## Members -/

variable [Scalar α]

/-- The member that a component becomes. -/
def Component.member (initial : PositionMap α) (c : Component α) : Member α :=
  ⟨c.id, ⟨(initial.get? c.id).getD c.position, c.orientation⟩, c.radius⟩

/-- A member that starts from finite numbers. -/
structure Member.StartsFinite (m : Member α) : Prop where
  position : m.start.position.isFinite = true
  orientation : m.start.orientation.isFinite = true
  radius : Arithmetic.isFinite m.radius = true

/-- Whether the position that a component starts from and its orientation are
finite. -/
def Component.startIsFinite (initial : PositionMap α) (c : Component α) : Bool :=
  ((initial.get? c.id).getD c.position).isFinite && c.orientation.isFinite

theorem Component.isFinite_radius {c : Component α} (h : c.radiusProblem? = none) :
    Arithmetic.isFinite c.radius = true := by
  unfold radiusProblem? at h
  split at h
  case isTrue => cases h
  case isFalse hfinite => simpa using hfinite

theorem Component.startsFinite_iff {initial : PositionMap α} {c : Component α}
    (h : c.radiusProblem? = none) :
    (c.member initial).StartsFinite ↔ c.startIsFinite initial = true := by
  rw [startIsFinite, Bool.and_eq_true]
  exact ⟨fun hc => ⟨hc.position, hc.orientation⟩, fun hc => ⟨hc.1, hc.2, isFinite_radius h⟩⟩

theorem Component.member?_eq {initial : PositionMap α} {c : Component α}
    (h : c.radiusProblem? = none) :
    c.member? initial =
      if c.startIsFinite initial then .ok (c.member initial)
      else .error (.rejected (.nonFiniteInput c.id)) := by
  rw [member?, isFinite_radius h, Bool.and_true]
  rfl

/-! ## Linkages -/

/-- The linkage of an assembly, as far as it has one. -/
def Assembly.linkage (a : Assembly α) (initial : PositionMap α) (turning : Bool) : Linkage α :=
  let constraints := a.constraints.map (Constraint.linked (a.components.map (·.id)))
  { members := (a.components.map (Component.member initial)).toArray
    constraints
    layout := .ofPinned turning ((List.range a.components.length).map (isFixedBy constraints)) }

/-- The first problem of an assembly stands for all. Without one, the first
component that does not start from finite numbers is an error, and without one of
these there is a linkage. -/
theorem Assembly.link?_eq (a : Assembly α) (initial : PositionMap α) (turning : Bool) :
    a.link? initial turning =
      match a.problems.head? with
      | some error => .error (.rejected error)
      | none =>
        match a.components.find? fun c => !c.startIsFinite initial with
        | some c => .error (.rejected (.nonFiniteInput c.id))
        | none => .ok (a.linkage initial turning) := by
  cases hproblems : a.problems with
  | cons error rest => rw [link?, hproblems]; rfl
  | nil =>
    have hwell := problems_eq_nil_iff.1 hproblems
    rw [link?, hproblems, List.head?_nil]
    dsimp only
    rw [mapM_eq_find? fun c hc => Component.member?_eq (hwell.radius_ok c hc)]
    cases a.components.find? fun c => !c.startIsFinite initial with
    | some c => rfl
    | none =>
      dsimp only
      rw [mapM_eq_ok fun con hcon => Constraint.link?_eq_ok (hwell.ends_known con hcon), ok_bind,
        ok_bind, return_eq_ok, List.length_map]
      rfl

/-- An assembly has a linkage exactly when it is well formed and starts from
finite numbers. -/
theorem Assembly.link?_eq_ok_iff {a : Assembly α} {initial : PositionMap α} {turning : Bool}
    {L : Linkage α} :
    a.link? initial turning = .ok L ↔
      a.WellFormed ∧ (∀ c ∈ a.components, (c.member initial).StartsFinite) ∧
        L = a.linkage initial turning := by
  rw [← problems_eq_nil_iff, link?_eq]
  cases hproblems : a.problems with
  | cons error rest => simp
  | nil =>
    have hwell := problems_eq_nil_iff.1 hproblems
    have hfinite : (∀ c ∈ a.components, (c.member initial).StartsFinite) ↔
        a.components.find? (fun c => !c.startIsFinite initial) = none := by
      rw [List.find?_eq_none]
      refine forall_congr' fun c => forall_congr' fun hc => ?_
      rw [Component.startsFinite_iff (hwell.radius_ok c hc)]
      simp
    rw [hfinite]
    cases a.components.find? fun c => !c.startIsFinite initial with
    | some c => simp
    | none => simp [eq_comm]

/-- Over numbers that are all finite, a well-formed assembly has a linkage wherever it
starts. -/
theorem Assembly.link?_of_finite (hfinite : ∀ x : α, Arithmetic.isFinite x = true)
    {a : Assembly α} (hwell : a.WellFormed) (initial : PositionMap α) (turning : Bool) :
    a.link? initial turning = .ok (a.linkage initial turning) := by
  refine link?_eq_ok_iff.2 ⟨hwell, fun part _ => ⟨?_, ?_, hfinite _⟩, rfl⟩
  · simp [Point.isFinite, hfinite]
  · simp [EulerAngles.isFinite, hfinite]

/-- The ends of the constraints of a well-formed assembly have places among its
components. -/
theorem Assembly.ends_lt_linked {a : Assembly α} (hwell : a.WellFormed) :
    ∀ c ∈ a.constraints.map (Constraint.linked (a.components.map (·.id))), ∀ i ∈ c.bond.ends,
      i < a.components.length := by
  intro c hc i hi
  obtain ⟨con, hcon, rfl⟩ := List.mem_map.1 hc
  rw [Constraint.linked, Bond.ends_map] at hi
  obtain ⟨id, hid, rfl⟩ := List.mem_map.1 hi
  have hlt := List.idxOf_lt_length_iff.2 (hwell.ends_known con hcon id hid)
  rwa [List.length_map] at hlt

end Joinery
