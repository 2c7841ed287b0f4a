import Joinery.Proofs.Assembly.Problems
import Joinery.Proofs.Scalar.Laws
/-!
# What the list of problems says

The search for problems goes through the components and then through the
constraints, with the identifiers it has seen so far. What it lists does not hang
on this: every use of an identifier but one, every end that is no component, and
every constraint with a number out of range. An assembly without problems is the
one that is in order.
-/

namespace Joinery

open Arithmetic

/-! ## Kinds of problems -/

namespace InputError

variable {α : Type}

def repeatedComponent? : InputError α → Option String
  | duplicateComponent component => some component
  | _ => none

def repeatedConstraint? : InputError α → Option String
  | duplicateConstraint constraint => some constraint
  | _ => none

/-- The constraint that names a component that is not there, and its name for it. -/
def dangling? : InputError α → Option (String × String)
  | unknownComponent constraint component => some (constraint, component)
  | _ => none

def faultyConstraint? : InputError α → Option String
  | invalidConstraint constraint _ => some constraint
  | _ => none

end InputError

/-! ## Repeated identifiers -/

/-- The identifiers that were used before, as often as they are used again. -/
def repeats (seen : List String) : List String → List String
  | [] => []
  | id :: rest => (if seen.contains id then [id] else []) ++ repeats (id :: seen) rest

/-- An identifier is repeated at every use but the first. -/
theorem count_repeats (seen ids : List String) (id : String) :
    (repeats seen ids).count id = ids.count id - if id ∈ seen then 0 else 1 := by
  induction ids generalizing seen with
  | nil => simp [repeats]
  | cons first rest ih =>
    rw [repeats, List.count_append, ih]
    by_cases hid : first = id
    · subst hid
      by_cases hseen : first ∈ seen
      · simp [hseen, Nat.add_comm]
      · simp [hseen]
    · have hmem : id ∈ first :: seen ↔ id ∈ seen := by simp [Ne.symm hid]
      have hfirst : (if seen.contains first then [first] else []).count id = 0 := by
        split <;> simp [hid]
      simp only [hfirst, hmem, Nat.zero_add, List.count_cons_of_ne hid]

variable {α : Type} [Scalar α]

/-! ## Components -/

namespace Component

variable {seen : List String} {l : List (Component α)} {β : Type}

/-- What reads nothing off the problems of radii reads repetitions only. -/
theorem filterMap_problems {f : InputError α → Option β}
    (hradius : ∀ c : Component α, c.radiusProblem?.toList.filterMap f = []) :
    (problems seen l).filterMap f =
      (repeats seen (l.map (·.id))).filterMap fun id => f (.duplicateComponent id) := by
  induction l generalizing seen with
  | nil => rfl
  | cons c rest ih =>
    rw [problems, List.map_cons, repeats, List.filterMap_append, List.filterMap_append,
      List.filterMap_append, hradius, List.append_nil, ih]
    split <;> rfl

theorem radiusProblem?_eq_none_iff [LawfulArithmetic α] {c : Component α} :
    c.radiusProblem? = none ↔ isFinite c.radius = true ∧ 0 ≤ c.radius := by
  unfold radiusProblem?
  cases hfinite : isFinite c.radius with
  | false => simp
  | true =>
    rw [← not_lt_zero_iff hfinite]
    by_cases hneg : c.radius < 0 <;> simp [hneg]

end Component

/-! ## Constraints -/

/-- The numbers of a constraint that are accepted. -/
structure Constraint.InRange {ρ : Type} (c : Constraint ρ α) : Prop where
  weight : isFinite c.weight = true ∧ 0 < c.weight
  tolerance : ∀ t, c.tolerance = some t → isFinite t = true ∧ 0 ≤ t
  distance : ∀ target a b, c.bond = .pair (.distance target) a b →
    isFinite target = true ∧ 0 ≤ target
  angle : ∀ target a b, c.bond = .pair (.angle target) a b → isFinite target = true
  plane : ∀ plane a b, c.bond = .pair (.symmetric plane) a b → isFinite plane.offset = true

namespace Constraint

variable {ρ β : Type}

theorem ofBond_eq_none_iff [LawfulArithmetic α] {bond : Bond ρ α} :
    defect?.ofBond bond = none ↔
      (∀ target a b, bond = .pair (.distance target) a b → isFinite target = true ∧ 0 ≤ target) ∧
        (∀ target a b, bond = .pair (.angle target) a b → isFinite target = true) ∧
          ∀ plane a b, bond = .pair (.symmetric plane) a b → isFinite plane.offset = true := by
  rcases bond with a | ⟨relation, a, b⟩
  · simp [defect?.ofBond]
  · cases relation with
    | distance target =>
      simp only [defect?.ofBond, Relation.defect?]
      cases hfinite : isFinite target with
      | false => simp [hfinite]
      | true => simp [hfinite, ← not_lt_zero_iff hfinite]
    | angle target => simp [defect?.ofBond, Relation.defect?]
    | symmetric plane => simp [defect?.ofBond, Relation.defect?]
    | _ => simp [defect?.ofBond, Relation.defect?]

theorem defect?_eq_none_iff [LawfulArithmetic α] {c : Constraint ρ α} :
    c.defect? = none ↔ c.InRange := by
  have hweight : (!isFinite c.weight) = true ∨ c.weight ≤ 0 ↔
      ¬(isFinite c.weight = true ∧ 0 < c.weight) := by
    cases hfinite : isFinite c.weight with
    | false => simp
    | true => simp [← not_le_zero_iff hfinite]
  have htolerance : ∀ t : α, (!isFinite t) = true ∨ t < 0 ↔ ¬(isFinite t = true ∧ 0 ≤ t) := by
    intro t
    cases hfinite : isFinite t with
    | false => simp
    | true => simp [← not_lt_zero_iff hfinite]
  have hrange : c.InRange ↔ (isFinite c.weight = true ∧ 0 < c.weight) ∧
      (∀ t, c.tolerance = some t → isFinite t = true ∧ 0 ≤ t) ∧ defect?.ofBond c.bond = none := by
    rw [ofBond_eq_none_iff]
    exact ⟨fun h => ⟨h.weight, h.tolerance, h.distance, h.angle, h.plane⟩,
      fun ⟨hw, ht, hd, ha, hp⟩ => ⟨hw, ht, hd, ha, hp⟩⟩
  rw [hrange]
  unfold defect?
  simp only [hweight]
  by_cases hw : isFinite c.weight = true ∧ 0 < c.weight
  · rw [if_neg (not_not_intro hw)]
    cases ht : c.tolerance with
    | none => simp [hw]
    | some t =>
      simp only [htolerance]
      by_cases hin : isFinite t = true ∧ 0 ≤ t
      · simp [hin, hw]
      · simp [hin]
  · simp [hw]

instance [LawfulArithmetic α] (c : Constraint ρ α) : Decidable c.InRange :=
  decidable_of_iff (c.defect?.isNone = true) (by
    rw [Option.isNone_iff_eq_none, defect?_eq_none_iff])

section Problems

variable (c : Constraint String α) (known seen : List String) (l : List (Constraint String α))
  (f : InputError α → Option β)

/-- What is read off the problems of constraints, problem by problem. -/
theorem filterMap_problems_cons :
    (problems known seen (c :: l)).filterMap f =
      (if seen.contains c.id then (f (.duplicateConstraint c.id)).toList else []) ++
        (c.bond.ends.filter fun id => !known.contains id).filterMap
          (fun id => f (.unknownComponent c.id id)) ++
        (c.defect?.bind fun reason => f (.invalidConstraint c.id reason)).toList ++
        (problems known (c.id :: seen) l).filterMap f := by
  have hone : ∀ e, [e].filterMap f = (f e).toList := by
    intro e
    rw [List.filterMap_cons]
    cases f e <;> rfl
  have hrepeated : (if seen.contains c.id then [.duplicateConstraint c.id] else []).filterMap f =
      if seen.contains c.id then (f (.duplicateConstraint c.id)).toList else [] := by
    split
    · exact hone _
    · rfl
  have hdefect : (c.defect?.map (.invalidConstraint c.id)).toList.filterMap f =
      (c.defect?.bind fun reason => f (.invalidConstraint c.id reason)).toList := by
    cases c.defect? with
    | none => rfl
    | some reason =>
      exact hone _
  rw [problems, List.filterMap_append, List.filterMap_append, List.filterMap_append,
    hrepeated, hdefect, List.filterMap_map]
  rfl

/-- No repeated component is found among constraints. -/
theorem repeatedComponent_problems :
    (problems known seen l).filterMap InputError.repeatedComponent? = [] := by
  induction l generalizing seen with
  | nil => rfl
  | cons c rest ih =>
    rw [filterMap_problems_cons, ih]
    simp [InputError.repeatedComponent?]

theorem repeated_problems :
    (problems known seen l).filterMap InputError.repeatedConstraint? =
      repeats seen (l.map (·.id)) := by
  induction l generalizing seen with
  | nil => rfl
  | cons c rest ih =>
    rw [filterMap_problems_cons, ih, List.map_cons, repeats]
    simp [InputError.repeatedConstraint?]

theorem dangling_problems :
    (problems known seen l).filterMap InputError.dangling? =
      l.flatMap fun c => (c.bond.ends.filter (· ∉ known)).map fun id => (c.id, id) := by
  induction l generalizing seen with
  | nil => rfl
  | cons c rest ih =>
    rw [filterMap_problems_cons, ih, List.flatMap_cons]
    simp [InputError.dangling?]

theorem faulty_problems [LawfulArithmetic α] :
    (problems known seen l).filterMap InputError.faultyConstraint? =
      (l.filter fun c => ¬c.InRange).map (·.id) := by
  induction l generalizing seen with
  | nil => rfl
  | cons c rest ih =>
    rw [filterMap_problems_cons, ih, List.filter_cons]
    have hdefect : c.defect? = none ↔ c.InRange := defect?_eq_none_iff
    cases hc : c.defect? with
    | none => simp [InputError.faultyConstraint?, hdefect.1 hc]
    | some reason =>
      have hnot : ¬c.InRange := fun hrange => by cases hc.symm.trans (hdefect.2 hrange)
      simp [InputError.faultyConstraint?, hnot]

end Problems

end Constraint

/-! ## Assemblies -/

/-- An assembly that can be worked with: identifiers are used once, constraints
hold components, and all numbers are in range. -/
structure Assembly.InOrder (a : Assembly α) : Prop where
  components_once : (a.components.map (·.id)).Nodup
  radii : ∀ part ∈ a.components, isFinite part.radius = true ∧ 0 ≤ part.radius
  constraints_once : (a.constraints.map (·.id)).Nodup
  ends : ∀ con ∈ a.constraints, ∀ id ∈ con.bond.ends, ∃ part ∈ a.components, part.id = id
  numbers : ∀ con ∈ a.constraints, con.InRange

/-- What the problems of an assembly say of each identifier, end and constraint. -/
structure Assembly.Lists [LawfulArithmetic α] (a : Assembly α) : Prop where
  components : ∀ id, (a.problems.filterMap InputError.repeatedComponent?).count id =
    (a.components.map (·.id)).count id - 1
  constraints : ∀ id, (a.problems.filterMap InputError.repeatedConstraint?).count id =
    (a.constraints.map (·.id)).count id - 1
  dangling : a.problems.filterMap InputError.dangling? =
    a.constraints.flatMap fun con =>
      (con.bond.ends.filter (· ∉ a.components.map (·.id))).map fun id => (con.id, id)
  faulty : a.problems.filterMap InputError.faultyConstraint? =
    (a.constraints.filter fun con => ¬con.InRange).map (·.id)

namespace Assembly

variable [LawfulArithmetic α] {a : Assembly α}

theorem wellFormed_iff_inOrder : a.WellFormed ↔ a.InOrder := by
  have hends : (∀ con ∈ a.constraints, ∀ id ∈ con.bond.ends, id ∈ a.components.map (·.id)) ↔
      ∀ con ∈ a.constraints, ∀ id ∈ con.bond.ends, ∃ part ∈ a.components, part.id = id := by
    simp only [List.mem_map]
  constructor
  · intro h
    exact ⟨h.components_nodup, fun part hpart => Component.radiusProblem?_eq_none_iff.1
      (h.radius_ok part hpart), h.constraints_nodup, hends.1 h.ends_known,
      fun con hcon => Constraint.defect?_eq_none_iff.1 (h.numbers_ok con hcon)⟩
  · intro h
    exact ⟨h.components_once, fun part hpart => Component.radiusProblem?_eq_none_iff.2
      (h.radii part hpart), h.constraints_once, hends.2 h.ends,
      fun con hcon => Constraint.defect?_eq_none_iff.2 (h.numbers con hcon)⟩

omit [LawfulArithmetic α] in
/-- What is read off the problems of an assembly. -/
theorem filterMap_problems {β : Type} {f : InputError α → Option β}
    (hempty : f (.emptyAssembly a.constraints.length) = none)
    (hradius : ∀ c : Component α, c.radiusProblem?.toList.filterMap f = []) :
    a.problems.filterMap f =
      (repeats [] (a.components.map (·.id))).filterMap (fun id => f (.duplicateComponent id)) ++
        (Constraint.problems (a.components.map (·.id)) [] a.constraints).filterMap f := by
  have hfirst : (if a.components.isEmpty && !a.constraints.isEmpty then
      [.emptyAssembly a.constraints.length] else []).filterMap f = [] := by
    split <;> simp [hempty]
  rw [problems, List.filterMap_append, List.filterMap_append, hfirst, List.nil_append,
    Component.filterMap_problems hradius]

theorem lists_problems (a : Assembly α) : a.Lists := by
  have hradius : ∀ {β : Type} {f : InputError α → Option β},
      (∀ id, f (.nonFiniteInput id) = none) →
      (∀ id reason, f (.invalidComponent id reason) = none) →
      ∀ c : Component α, c.radiusProblem?.toList.filterMap f = [] := by
    intro β f hnonFinite hinvalid c
    unfold Component.radiusProblem?
    split
    · simp [hnonFinite]
    · split <;> simp [hinvalid]
  have hnone : ∀ (β : Type) (ids : List String), ids.filterMap (fun _ => (none : Option β)) = [] :=
    fun _ _ => List.filterMap_eq_nil_iff.2 fun _ _ => rfl
  refine ⟨fun id => ?_, fun id => ?_, ?_, ?_⟩
  · rw [filterMap_problems rfl (hradius (fun _ => rfl) fun _ _ => rfl),
      Constraint.repeatedComponent_problems]
    simp [InputError.repeatedComponent?, count_repeats]
  · rw [filterMap_problems rfl (hradius (fun _ => rfl) fun _ _ => rfl),
      Constraint.repeated_problems]
    simp [InputError.repeatedConstraint?, hnone, count_repeats]
  · rw [filterMap_problems rfl (hradius (fun _ => rfl) fun _ _ => rfl),
      Constraint.dangling_problems]
    simp [InputError.dangling?, hnone]
  · rw [filterMap_problems rfl (hradius (fun _ => rfl) fun _ _ => rfl),
      Constraint.faulty_problems]
    simp [InputError.faultyConstraint?, hnone]

end Assembly

end Joinery
