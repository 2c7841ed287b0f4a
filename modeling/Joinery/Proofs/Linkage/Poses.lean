import Joinery.Proofs.Assembly.IdMap
import Joinery.Proofs.Linkage.Reads
/-!
# Which component a variable belongs to

A variable lies in one stretch, so a constraint that reads a variable of a
component names that component. The maps that a state is written out to have one
entry for each component, with the pose of the member that it became.
-/

namespace Joinery

/-! ## Owners -/

namespace Layout

variable {l : Layout} {i j : Nat}

theorem three_le_stride (l : Layout) : 3 ≤ l.stride := by
  unfold stride freedomOfPart
  split <;> omega

theorem owns_iff : l.owns i j = true ↔ ∃ k, l.offset? i = some k ∧ k ≤ j ∧ j < k + l.stride := by
  unfold owns
  cases l.offset? i <;> simp

theorem Places.owns (h : l.Places i j) : l.owns i j = true := by
  obtain ⟨k, hk, hle, hlt⟩ := h
  have hstride := l.three_le_stride
  exact owns_iff.2 ⟨k, hk, hle, by omega⟩

theorem Turns.owns (h : l.Turns i j) : l.owns i j = true := by
  obtain ⟨k, hk, hle, hlt⟩ := h
  exact owns_iff.2 ⟨k, hk, by omega, hlt⟩

/-- No coordinate of a component is one of its angles. -/
theorem Places.not_turns (h : l.Places i j) : ¬l.Turns i j := by
  obtain ⟨k, hk, -, hlt⟩ := h
  rintro ⟨k', hk', hle, -⟩
  rw [hk] at hk'
  cases hk'
  omega

end Layout

theorem Linkage.Regular.owner_unique {α : Type} {L : Linkage α} (h : L.Regular) {i i' j : Nat}
    (hi : L.layout.owns i j = true) (hi' : L.layout.owns i' j = true) : i = i' := by
  obtain ⟨k, hk, hle, hlt⟩ := Layout.owns_iff.1 hi
  obtain ⟨k', hk', hle', hlt'⟩ := Layout.owns_iff.1 hi'
  refine Decidable.byContradiction ?_
  intro hne
  rcases h.apart hk hk' hne with hapart | hapart <;> omega

/-! ## Variables that stay -/

namespace Linkage

variable {α : Type} [Scalar α] [LawfulOrder α] {L : Linkage α} {s : Array α} {i : Nat}

/-- A member whose coordinates are where they started is where it started. -/
theorem Regular.position_beq (h : L.Regular) (hstart : (L.startPose i).position.isFinite = true)
    (hs : ∀ j, L.layout.Places i j → (s.getD j 0 == L.initialState.getD j 0) = true) :
    ((L.pose s i).position == (L.startPose i).position) = true := by
  unfold pose
  cases hk : L.layout.offset? i with
  | none => exact Point.beq_refl hstart
  | some k =>
    have hstride := L.layout.three_le_stride
    have hcoordinate : ∀ t, t < 3 →
        (s.getD (k + t) 0 == (coordinates L.layout.turning (L.startPose i)).getD t 0) = true := by
      intro t ht
      rw [← h.getD_initialState hk (by omega)]
      exact hs _ ⟨k, hk, by omega, by omega⟩
    exact Point.beq_iff.2 ⟨hcoordinate 0 (by omega), hcoordinate 1 (by omega),
      hcoordinate 2 (by omega)⟩

omit [LawfulOrder α] in
/-- Where members do not turn, all are turned as they were. -/
theorem orientation_of_still (h : L.layout.turning = false) :
    (L.pose s i).orientation = (L.startPose i).orientation := by
  unfold pose
  cases L.layout.offset? i with
  | none => rfl
  | some k => simp [h]

/-- A member whose angles are what they were at the start is turned as it was. -/
theorem Regular.orientation_beq (h : L.Regular)
    (hstart : (L.startPose i).orientation.isFinite = true)
    (hs : ∀ j, L.layout.Turns i j → (s.getD j 0 == L.initialState.getD j 0) = true) :
    ((L.pose s i).orientation == (L.startPose i).orientation) = true := by
  unfold pose
  cases hk : L.layout.offset? i with
  | none => exact EulerAngles.beq_refl hstart
  | some k =>
    cases hturning : L.layout.turning with
    | false => exact EulerAngles.beq_refl hstart
    | true =>
      have hstride : L.layout.stride = 6 := Layout.stride_of_turning hturning
      have hangle : ∀ t, t < 3 →
          (s.getD (k + (3 + t)) 0 == (coordinates true (L.startPose i)).getD (3 + t) 0) = true := by
        intro t ht
        have hfirst := h.getD_initialState hk (show 3 + t < L.layout.stride by omega)
        rw [hturning] at hfirst
        rw [← hfirst]
        exact hs (k + (3 + t)) ⟨k, hk, by omega, by omega⟩
      exact EulerAngles.beq_iff.2 ⟨hangle 0 (by omega), hangle 1 (by omega), hangle 2 (by omega)⟩

end Linkage

/-! ## Poses -/

section Poses

variable {α : Type} [Scalar α] {L : Linkage α} {s : Array α}

/-- The poses are those of the members, in their order. -/
theorem Linkage.mem_poses {x : String × Pose α} :
    x ∈ L.poses s ↔ ∃ i, ∃ h : i < L.members.size, x = (L.members[i].id, L.pose s i) := by
  unfold poses
  simp only [List.mem_map, Prod.exists, List.mem_zipIdx_iff_getElem?, Array.getElem?_toList]
  constructor
  · rintro ⟨m, i, hm, rfl⟩
    obtain ⟨hi, rfl⟩ := Array.getElem?_eq_some_iff.1 hm
    exact ⟨i, hi, rfl⟩
  · rintro ⟨i, hi, rfl⟩
    exact ⟨_, i, Array.getElem?_eq_getElem hi, rfl⟩

/-- Every entry of a map of poses is that of a member. -/
theorem Linkage.of_mem_entries {β : Type} (f : Pose α → β) {x : String × β}
    (h : x ∈ (IdMap.ofList ((L.poses s).map fun x => (x.1, f x.2))).entries) :
    ∃ i < L.members.size, x.2 = f (L.pose s i) := by
  obtain ⟨y, hy, rfl⟩ := List.mem_map.1 (IdMap.mem_of_mem_ofList h)
  obtain ⟨i, hi, rfl⟩ := mem_poses.1 hy
  exact ⟨i, hi, rfl⟩

variable {a : Assembly α} {initial : PositionMap α} {turning : Bool}

theorem Assembly.poses_keys :
    ((a.linkage initial turning).poses s).map (·.1) = a.components.map (·.id) := by
  unfold Linkage.poses
  have hids : ∀ l : List (Member α × Nat), (l.map fun m => (m.1.id,
      (a.linkage initial turning).pose s m.2)).map (·.1) = (l.map (·.1)).map (·.id) := by
    intro l
    simp
  rw [hids, List.zipIdx_map_fst]
  simp [linkage, Function.comp_def, Component.member]

/-- What is written out of each pose is found under the identifier of the
component. -/
theorem Assembly.get?_poses {β : Type} (f : Pose α → β) (hwell : a.WellFormed) {i : Nat}
    {part : Component α} (hi : a.components[i]? = some part) :
    (IdMap.ofList (((a.linkage initial turning).poses s).map fun x => (x.1, f x.2))).get? part.id =
      some (f ((a.linkage initial turning).pose s i)) := by
  obtain ⟨hlt, rfl⟩ := List.getElem?_eq_some_iff.1 hi
  apply IdMap.get?_ofList
  · rw [List.map_map]
    show (((a.linkage initial turning).poses s).map (·.1)).Nodup
    rw [poses_keys]
    exact hwell.components_nodup
  · have hsize : i < (a.linkage initial turning).members.size := by simpa [linkage] using hlt
    refine List.mem_map.2 ⟨_, Linkage.mem_poses.2 ⟨i, hsize, rfl⟩, ?_⟩
    simp [linkage, Component.member]

theorem Assembly.keys_poses {β : Type} (f : Pose α → β) (hwell : a.WellFormed) :
    (IdMap.ofList (((a.linkage initial turning).poses s).map fun x => (x.1, f x.2))).keys.Perm
      (a.components.map (·.id)) := by
  have hkeys : (((a.linkage initial turning).poses s).map fun x => (x.1, f x.2)).map (·.1) =
      a.components.map (·.id) := by
    rw [List.map_map]
    exact poses_keys
  rw [← hkeys]
  refine IdMap.keys_ofList_perm ?_
  rw [hkeys]
  exact hwell.components_nodup

theorem Assembly.startPose_linkage {i : Nat} {part : Component α}
    (hi : a.components[i]? = some part) :
    (a.linkage initial turning).startPose i = (part.member initial).start := by
  simp [Linkage.startPose, linkage, hi]

end Poses

/-! ## Constraints that name a component -/

section Named

variable {α : Type} [Scalar α] {a : Assembly α} {initial : PositionMap α} {turning : Bool}
  {con : Constraint String α} {i : Nat} {part : Component α}

/-- The place of an identifier is that of its component. -/
theorem Assembly.eq_id_of_idxOf (hwell : a.WellFormed) (hcon : con ∈ a.constraints)
    (hi : a.components[i]? = some part) {id : String} (hid : id ∈ con.bond.ends)
    (h : (a.components.map (·.id)).idxOf id = i) : id = part.id := by
  have hknown := List.getElem_idxOf (List.idxOf_lt_length_iff.2 (hwell.ends_known con hcon id hid))
  obtain ⟨hlt, rfl⟩ := List.getElem?_eq_some_iff.1 hi
  rw [← hknown]
  simp [h]

/-- The place of a component is that of its identifier. -/
theorem Assembly.idxOf_id (hwell : a.WellFormed) (hi : a.components[i]? = some part) :
    (a.components.map (·.id)).idxOf part.id = i := by
  obtain ⟨hlt, rfl⟩ := List.getElem?_eq_some_iff.1 hi
  have hlt' : i < (a.components.map (·.id)).length := by simpa using hlt
  have hid : (a.components.map (·.id))[i] = a.components[i].id := by simp
  rw [← hid]
  exact hwell.components_nodup.idxOf_getElem i hlt'

/-- A component that a constraint fixes has no stretch. -/
theorem Assembly.offset?_of_fixed (hwell : a.WellFormed) (hcon : con ∈ a.constraints)
    (hi : a.components[i]? = some part) (hfixed : con.bond = .fixed part.id) :
    (a.linkage initial turning).layout.offset? i = none := by
  have hplace := a.idxOf_id hwell hi
  obtain ⟨hlt, rfl⟩ := List.getElem?_eq_some_iff.1 hi
  have hsize : i < (a.linkage initial turning).members.size := by simpa [linkage] using hlt
  have hpinned : isFixedBy (a.linkage initial turning).constraints i = true := by
    unfold isFixedBy
    rw [List.any_eq_true]
    refine ⟨_, List.mem_map_of_mem hcon, ?_⟩
    simp [Constraint.linked, hfixed, Bond.map, Bond.isFixed, Bond.first, hplace]
  rw [(Linkage.regular_linkage a initial turning).offset?_eq hsize, if_pos hpinned]

/-- A component that a constraint fixes has the pose it starts from in every
state. -/
theorem Assembly.pose_of_fixed (hwell : a.WellFormed) (hcon : con ∈ a.constraints)
    (hi : a.components[i]? = some part) (hfixed : con.bond = .fixed part.id) (s : Array α) :
    (a.linkage initial turning).pose s i = (part.member initial).start := by
  rw [Linkage.pose, a.offset?_of_fixed hwell hcon hi hfixed]
  exact a.startPose_linkage hi

/-- A constraint that reads a variable of a component names the component. It is
between directions if it reads an angle, and between positions otherwise. -/
theorem Assembly.ends_of_reads (hwell : a.WellFormed) (hcon : con ∈ a.constraints)
    (hi : a.components[i]? = some part) {j : Nat}
    (howns : (a.linkage initial turning).layout.owns i j = true)
    (h : (con.linked (a.components.map (·.id))).bond.Reads (a.linkage initial turning).layout j) :
    part.id ∈ con.bond.ends ∧ con.bond.isFixed = false ∧
      if con.bond.isDirectional then (a.linkage initial turning).layout.Turns i j
      else (a.linkage initial turning).layout.Places i j := by
  unfold Constraint.linked at h
  simp only [Bond.reads_iff, Bond.isFixed_map, Bond.ends_map, Bond.isDirectional_map,
    List.mem_map] at h
  obtain ⟨hfixed, _, ⟨id, hid, rfl⟩, hreads⟩ := h
  have hown : (a.linkage initial turning).layout.owns
      ((a.components.map (·.id)).idxOf id) j = true := by
    split at hreads
    · exact hreads.owns
    · exact hreads.owns
  -- the variable tells the stretch, the stretch the place, and the place the identifier
  have hplace := (Linkage.regular_linkage a initial turning).owner_unique hown howns
  rw [hplace] at hreads
  cases a.eq_id_of_idxOf hwell hcon hi hid hplace
  exact ⟨hid, hfixed, hreads⟩

end Named

end Joinery
