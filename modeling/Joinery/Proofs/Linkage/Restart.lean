import Joinery.Proofs.Linkage.Lookup
/-!
# Linkages that start where a state ends

A state says where every member is, and a linkage can start from there
(`Linkage.restartedAt`). It is a linkage of the same members and constraints, and
its initial state has the same poses and the same deviations as the state it was
made from, number for number.

An assembly whose components were moved and turned to where a state has them is
linked to just this (`Assembly.Rearranges.linkage_eq`). So what is said of a
constraint at the start of a linkage (`Constraint.errorIn_eq_deviation`) holds in
any state, once the state is written back.
-/

namespace Joinery

variable {α : Type} [Scalar α]

namespace Linkage

variable {L : Linkage α} {s : Array α} {i : Nat}

/-- The linkage that starts where a state of another has the members. -/
def restartedAt (L : Linkage α) (s : Array α) : Linkage α :=
  { L with members := L.members.mapIdx fun i m => { m with start := L.pose s i } }

@[simp]
theorem getElem?_restartedAt (L : Linkage α) (s : Array α) (i : Nat) :
    (L.restartedAt s).members[i]? = L.members[i]?.map fun m => { m with start := L.pose s i } := by
  simp [restartedAt]

theorem Regular.restart (h : L.Regular) (s : Array α) : (L.restartedAt s).Regular := by
  simpa [Regular, restartedAt] using h

theorem Regular.startPose_restartedAt (h : L.Regular) (s : Array α) (i : Nat) :
    (L.restartedAt s).startPose i = L.pose s i := by
  rw [startPose, getElem?_restartedAt]
  cases hi : L.members[i]? with
  | some m => rfl
  | none =>
    -- there is no such member, so neither linkage has a pose for it
    rw [pose, h.offset?_eq_none (Array.getElem?_eq_none_iff.1 hi), startPose, hi]
    rfl

theorem Regular.pose_restartedAt (h : L.Regular) (s : Array α) (i : Nat) :
    (L.restartedAt s).pose (L.restartedAt s).initialState i = L.pose s i := by
  rw [(h.restart s).pose_initialState, h.startPose_restartedAt]

theorem Regular.body_restartedAt (h : L.Regular) (s : Array α) (i : Nat) :
    (L.restartedAt s).body (L.restartedAt s).initialState i = L.body s i := by
  rw [body, body, h.pose_restartedAt, getElem?_restartedAt, Option.map_map]
  rfl

/-- A constraint starts with the deviation that it has in the state. -/
theorem Regular.deviation_restartedAt (h : L.Regular) (s : Array α) (c : Constraint Nat α) :
    (L.restartedAt s).deviation (L.restartedAt s).initialState c = L.deviation s c := by
  rw [deviation, deviation, funext (h.body_restartedAt s)]

theorem Regular.deviations_restartedAt (h : L.Regular) (s : Array α) :
    (L.restartedAt s).deviations (L.restartedAt s).initialState = L.deviations s :=
  congrArg List.toArray (List.map_congr_left fun c _ => h.deviation_restartedAt s c)

theorem Regular.poses_restartedAt (h : L.Regular) (s : Array α) :
    (L.restartedAt s).poses (L.restartedAt s).initialState = L.poses s := by
  refine List.ext_getElem? fun i => ?_
  simp [poses, h.pose_restartedAt, Function.comp_def]

theorem Regular.positions_restartedAt (h : L.Regular) (s : Array α) :
    (L.restartedAt s).positions (L.restartedAt s).initialState = L.positions s := by
  rw [positions, h.poses_restartedAt, positions]

theorem Regular.orientations_restartedAt (h : L.Regular) (s : Array α) :
    (L.restartedAt s).orientations (L.restartedAt s).initialState = L.orientations s := by
  rw [orientations, h.poses_restartedAt, orientations]

end Linkage

/-! ## Assemblies with other poses -/

/-- An assembly that differs from another at most in where its components are, how
they are turned, and when it was edited. -/
structure Assembly.Rearranges {α : Type} (b a : Assembly α) : Prop where
  constraints : b.constraints = a.constraints
  components : b.components.map (fun part => (part.id, part.properties)) =
    a.components.map fun part => (part.id, part.properties)

section Rearranged

variable {a b : Assembly α} {positions initial : PositionMap α} {turning : Bool} {s : Array α}

/-- What a component is without its pose tells what is wrong with it. -/
theorem Component.radiusProblem?_congr {part original : Component α} (hid : part.id = original.id)
    (hproperties : part.properties = original.properties) :
    part.radiusProblem? = original.radiusProblem? := by
  cases part
  cases original
  cases hid
  cases hproperties
  rfl

/-- What a component is without its pose tells which member it becomes. -/
theorem Component.member_congr {part original : Component α} (hid : part.id = original.id)
    (hproperties : part.properties = original.properties) :
    part.member positions =
      { original.member initial with start := (part.member positions).start } := by
  simp only [Component.member, Component.radius, hid, hproperties]

namespace Assembly.Rearranges

omit [Scalar α] in
theorem ids (h : b.Rearranges a) : b.components.map (·.id) = a.components.map (·.id) := by
  simpa [Function.comp_def] using congrArg (List.map Prod.fst) h.components

omit [Scalar α] in
/-- Each component stands for the one in its place. -/
theorem getElem? (h : b.Rearranges a) {i : Nat} {part : Component α}
    (hi : b.components[i]? = some part) :
    ∃ original, a.components[i]? = some original ∧ part.id = original.id ∧
      part.properties = original.properties := by
  have hat := congrArg (·[i]?) h.components
  simp only [List.getElem?_map, hi, Option.map_some] at hat
  cases horiginal : a.components[i]? with
  | none => simp [horiginal] at hat
  | some original =>
    simp only [horiginal, Option.map_some, Option.some.injEq, Prod.mk.injEq] at hat
    exact ⟨original, rfl, hat⟩

/-- What is wrong with an assembly does not hang on poses. -/
theorem wellFormed (h : b.Rearranges a) (hwell : a.WellFormed) : b.WellFormed where
  components_nodup := h.ids ▸ hwell.components_nodup
  radius_ok part hpart := by
    obtain ⟨i, hi⟩ := List.mem_iff_getElem?.1 hpart
    obtain ⟨original, horiginal, hid, hproperties⟩ := h.getElem? hi
    rw [Component.radiusProblem?_congr hid hproperties]
    exact hwell.radius_ok original (List.mem_of_getElem? horiginal)
  constraints_nodup := h.constraints ▸ hwell.constraints_nodup
  ends_known := by
    rw [h.constraints, h.ids]
    exact hwell.ends_known
  numbers_ok := h.constraints ▸ hwell.numbers_ok

/-- An assembly whose components start where a state has them is linked to the
linkage that starts from the state. -/
theorem linkage_eq (h : b.Rearranges a)
    (hstart : ∀ i part, b.components[i]? = some part →
      (part.member positions).start = (a.linkage initial turning).pose s i) :
    b.linkage positions turning = (a.linkage initial turning).restartedAt s := by
  have hlength : b.components.length = a.components.length := by
    simpa using congrArg List.length h.ids
  have hmembers : (b.components.map (Component.member positions)).toArray =
      ((a.linkage initial turning).restartedAt s).members := by
    refine Array.ext_getElem? fun i => ?_
    rw [Linkage.getElem?_restartedAt, getElem?_members, List.getElem?_toArray, List.getElem?_map]
    cases hi : b.components[i]? with
    | none =>
      have hnone : a.components[i]? = none := by
        rw [List.getElem?_eq_none_iff, ← hlength]
        exact List.getElem?_eq_none_iff.1 hi
      rw [hnone]
      rfl
    | some part =>
      obtain ⟨original, horiginal, hid, hproperties⟩ := h.getElem? hi
      rw [horiginal, Option.map_some, Component.member_congr hid hproperties, hstart i part hi]
      rfl
  simp only [linkage, hmembers, h.constraints, h.ids, hlength]
  rfl

end Assembly.Rearranges

end Rearranged

end Joinery
