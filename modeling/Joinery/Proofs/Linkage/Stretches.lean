import Mathlib
import Joinery.Proofs.Guarded.Linkage
import Joinery.Proofs.Linkage.Lookup
/-!
# States are made of stretches

The stretches of the members that are not fixed lie side by side in a state, in the order of
the components, and nothing of the state lies between them (`Regular.flatMap_stretch`). So a
state holds the poses of these members and nothing else: it is the state that its own poses
give (`Regular.stateOf_pose`), and two states with the same poses are one.
-/

namespace Joinery

open Guarded

/-! ## Components that are fixed -/

namespace Assembly

variable {α : Type} {a : Assembly α} {id : String}

/-- Whether some constraint of an assembly fixes the component with the identifier. -/
def fixes (a : Assembly α) (id : String) : Bool :=
  a.constraints.any fun con => con.bond.isFixed && con.bond.first == id

theorem fixes_iff : a.fixes id = true ↔ ∃ con ∈ a.constraints, con.bond = .fixed id := by
  rw [fixes, List.any_eq_true]
  refine exists_congr fun con => and_congr_right fun _ => ?_
  cases con.bond <;> simp [Bond.isFixed, Bond.first]

variable [Scalar α] {i : Nat} {part : Component α} {initial : PositionMap α} {turning : Bool}

/-- A place is fixed in a linkage exactly when its component is in the assembly. -/
theorem isFixedBy_linkage (hwell : a.WellFormed) (hi : a.components[i]? = some part) :
    isFixedBy (a.linkage initial turning).constraints i = a.fixes part.id := by
  have hlt : i < (a.linkage initial turning).members.size := by
    simpa [linkage] using (List.getElem?_eq_some_iff.1 hi).1
  have hpinned : (a.linkage initial turning).layout.isPinned i =
      isFixedBy (a.linkage initial turning).constraints i := by
    rw [Layout.isPinned, (Linkage.regular_linkage a initial turning).offset?_eq hlt]
    cases isFixedBy (a.linkage initial turning).constraints i <;> rfl
  rw [← hpinned, Bool.eq_iff_iff, isPinned_linkage_iff hwell hi, fixes_iff]

/-- A state has as many numbers as the components that nothing fixes have together. -/
theorem size_linkage (hwell : a.WellFormed) (initial : PositionMap α) (turning : Bool) :
    (a.linkage initial turning).size =
      freedomOfPart turning * a.components.countP fun part => !a.fixes part.id := by
  have hrange : a.components.map (fun part => a.fixes part.id) =
      (List.range (a.linkage initial turning).members.size).map
        (isFixedBy (a.linkage initial turning).constraints) := by
    refine List.ext_getElem (by simp [linkage]) ?_
    intro i hi hi'
    rw [List.length_map] at hi
    rw [List.getElem_map, List.getElem_map, List.getElem_range,
      isFixedBy_linkage hwell (List.getElem?_eq_getElem hi)]
  rw [(Linkage.regular_linkage a initial turning).size_eq, Layout.unpinned,
    ← List.range_eq_range']
  have hcount := congrArg (List.countP fun fixed => !fixed) hrange
  rw [List.countP_map, List.countP_map] at hcount
  exact congrArg (freedomOfPart turning * ·) hcount.symm

end Assembly

/-! ## Stretches side by side -/

namespace Linkage

variable {α : Type} {L : Linkage α}

/-- The stretches of the first members cover the state up to where the next one starts. -/
theorem Regular.flatMap_stretch (h : L.Regular) {n : Nat} (hn : n ≤ L.members.size) :
    (List.range n).flatMap (stretch L) =
      List.range (L.layout.stride * Layout.unpinned (isFixedBy L.constraints) 0 n) := by
  induction n with
  | zero => rfl
  | succ n ih =>
    rw [List.range_succ, List.flatMap_append, ih (by omega), List.flatMap_singleton, stretch,
      h.offset?_eq (by omega), Layout.unpinned_concat, Nat.zero_add]
    cases isFixedBy L.constraints n with
    | true => simp
    | false =>
      have happend := List.range'_append_1 (s := 0)
        (m := L.layout.stride * Layout.unpinned (isFixedBy L.constraints) 0 n)
        (n := L.layout.stride)
      rw [Nat.zero_add] at happend
      rw [List.range_eq_range', List.range_eq_range', Nat.mul_add]
      simpa using happend

variable [Scalar α] {s s' : Array α} {i k t : Nat}

/-- The numbers of the pose of a member are those of its stretch. -/
theorem getD_coordinates_pose (hk : L.layout.offset? i = some k) (ht : t < L.layout.stride) :
    (coordinates L.layout.turning (L.pose s i)).getD t 0 = s.getD (k + t) 0 := by
  have hpose : coordinates L.layout.turning (L.pose s i) =
      (List.range' k L.layout.stride).map fun j => s.getD j 0 := by
    rw [pose, hk]
    cases hturning : L.layout.turning with
    | true => rw [Layout.stride_of_turning hturning]; rfl
    | false => rw [Layout.stride, hturning]; rfl
  rw [hpose, List.getD_eq_getElem _ _ (by simpa using ht)]
  simp

/-- A state is the one that its own poses give. -/
theorem Regular.stateOf_pose (h : L.Regular) (hs : s.size = L.size) : L.stateOf (L.pose s) = s := by
  refine Dense.ext_getD (h.size_stateOf _) hs ?_
  intro j hj
  obtain ⟨i, k, t, hk, ht, rfl⟩ := h.exists_offset hj
  rw [Array.getD_eq_getD_getElem?, h.getElem?_stateOf _ hk ht, ← List.getD_eq_getElem?_getD,
    getD_coordinates_pose hk ht]

/-- States in which every member has the same pose are the same. -/
theorem Regular.eq_of_poses (h : L.Regular) (hs : s.size = L.size) (hs' : s'.size = L.size)
    (heq : ∀ i < L.members.size, L.pose s i = L.pose s' i) : s = s' := by
  rw [← h.stateOf_pose hs, ← h.stateOf_pose hs', stateOf, stateOf, List.flatMap_def,
    List.flatMap_def]
  refine congrArg (fun l => (List.flatten l).toArray) (List.map_congr_left fun i hi => ?_)
  rw [heq i (List.mem_range.1 hi)]

/-! ## Linkages of assemblies -/

/-- What a linkage makes of the free components of its assembly: a stretch of the state for
each, and a state for all their poses. -/
structure Encodes [Scalar α] (L : Linkage α) (a : Assembly α) (initial : PositionMap α)
    (turning : Bool) : Prop where
  /-- One after the other, the stretches are the whole state. -/
  tiles : (List.range a.components.length).flatMap (stretch L) = List.range L.size
  apart : (List.range a.components.length).Pairwise fun i i' =>
    (stretch L i).Disjoint (stretch L i')
  /-- What is fixed has no stretch, and all else has one for its position, and for its
  orientation where components turn. -/
  stretch_eq : ∀ i part, a.components[i]? = some part →
    if a.fixes part.id then stretch L i = []
    else ∃ k, stretch L i = List.range' k (freedomOfPart turning)
  size_eq : L.size = freedomOfPart turning * a.components.countP fun part => !a.fixes part.id
  start : ∀ i part, a.components[i]? = some part → L.pose L.initialState i =
    ⟨(initial.get? part.id).getD part.position, part.orientation⟩
  written_back : ∀ s : Array α, s.size = L.size → L.stateOf (L.pose s) = s
  determined : ∀ s s' : Array α, s.size = L.size → s'.size = L.size →
    L.positions s = L.positions s' → L.orientations s = L.orientations s' → s = s'

end Linkage

namespace Assembly

variable {α : Type} [Scalar α] {a : Assembly α} {initial : PositionMap α} {turning : Bool}

/-- The maps that a state is written out to tell where every member is. -/
theorem pose_eq_of_maps (hwell : a.WellFormed) {s s' : Array α}
    (hpositions : (a.linkage initial turning).positions s =
      (a.linkage initial turning).positions s')
    (horientations : (a.linkage initial turning).orientations s =
      (a.linkage initial turning).orientations s') {i : Nat} {part : Component α}
    (hi : a.components[i]? = some part) :
    (a.linkage initial turning).pose s i = (a.linkage initial turning).pose s' i := by
  have hposition := congrArg (·.get? part.id) hpositions
  have horientation := congrArg (·.get? part.id) horientations
  unfold Linkage.positions at hposition
  unfold Linkage.orientations at horientation
  simp only [get?_poses _ hwell hi, Option.some.injEq] at hposition horientation
  generalize (a.linkage initial turning).pose s i = p at *
  generalize (a.linkage initial turning).pose s' i = p' at *
  cases p
  cases p'
  cases hposition
  cases horientation
  rfl

/-- In the state of a linkage every component that nothing fixes has a stretch of its own.
The stretches stand in the order of the components and leave nothing out, and the poses that
they hold are all that a state says. -/
theorem states_lossless (a : Assembly α) (initial : PositionMap α) (turning : Bool)
    (L : Linkage α) (h : a.link? initial turning = .ok L) : L.Encodes a initial turning := by
  obtain ⟨hwell, -, rfl⟩ := link?_eq_ok_iff.1 h
  have hregular := Linkage.regular_linkage a initial turning
  have hmembers : (a.linkage initial turning).members.size = a.components.length := by
    simp [linkage]
  have htiles : (List.range a.components.length).flatMap (stretch (a.linkage initial turning)) =
      List.range (a.linkage initial turning).size := by
    rw [← hmembers, hregular.flatMap_stretch (Nat.le_refl _), hregular.size_eq]
  refine ⟨htiles, ?_, ?_, size_linkage hwell initial turning, ?_, ?_, ?_⟩
  · -- no place of the state occurs twice among the stretches
    have hnodup := List.nodup_range (n := (a.linkage initial turning).size)
    rw [← htiles, List.nodup_flatMap] at hnodup
    exact hnodup.2
  · intro i part hi
    have hlt := (List.getElem?_eq_some_iff.1 hi).1
    rw [stretch, hregular.offset?_eq (hmembers.symm ▸ hlt), isFixedBy_linkage hwell hi]
    cases a.fixes part.id with
    | true => rfl
    | false => exact ⟨_, rfl⟩
  · intro i part hi
    rw [hregular.pose_initialState, a.startPose_linkage hi]
    rfl
  · intro s hs
    exact hregular.stateOf_pose hs
  · intro s s' hs hs' hpositions horientations
    refine hregular.eq_of_poses hs hs' fun i hi => ?_
    exact pose_eq_of_maps hwell hpositions horientations
      (List.getElem?_eq_getElem (hmembers ▸ hi))

/-- Two drawers in a frame that two screws hold. -/
def chest : Assembly Float where
  metadata := ⟨⟨0⟩, "chest", 1, ⟨⟨2000, 1, 1⟩, 0, 0⟩, ⟨⟨2000, 1, 1⟩, 0, 0⟩⟩
  components := [
    ⟨"upper", ⟨0, 0, 2⟩, .identity, .empty⟩,
    ⟨"frame", ⟨0, 0, 0⟩, .identity, .empty⟩,
    ⟨"lower", ⟨0, 0, 1⟩, .identity, .empty⟩]
  constraints := [
    ⟨"left screw", .fixed "frame", none, 1⟩,
    ⟨"gap", .pair (.distance 1) "upper" "lower", none, 1⟩,
    ⟨"right screw", .fixed "frame", none, 1⟩]

/-- The drawers have twelve numbers together, and the frame between them has none. -/
theorem states_lossless_chest : ∃ L, chest.link? (.ofList [("lower", ⟨0, 3, 1⟩)]) true = .ok L ∧
    L.size = 12 ∧ stretch L 1 = [] ∧ (∃ k, stretch L 2 = List.range' k 6) ∧
    L.pose L.initialState 2 = ⟨⟨0, 3, 1⟩, .identity⟩ ∧
    L.stateOf (L.pose L.initialState) = L.initialState := by
  have hlink : (chest.link? (.ofList [("lower", ⟨0, 3, 1⟩)]) true).toOption.any
      (fun L => L.initialState.size = L.size) = true := by
    decide +kernel
  obtain ⟨L, hL, hsize⟩ := exists_eq_ok hlink
  have hencodes := states_lossless chest _ true L hL
  refine ⟨L, hL, hencodes.size_eq, hencodes.stretch_eq 1 _ rfl, hencodes.stretch_eq 2 _ rfl,
    hencodes.start 2 _ rfl, hencodes.written_back _ (of_decide_eq_true hsize)⟩

end Assembly

end Joinery
