import Mathlib
import Joinery.Proofs.Dense.Entries
import Joinery.Proofs.Linkage.Acceptance
import Joinery.Proofs.Linkage.Lookup
/-!
# Linkages in another order

Where the members and the constraints of a linkage are taken in another order, the
stretches of a state are too. Each variable of the second linkage is then one of the
first (`slot`), and a state of the first is read as a state of the second
(`reread`) in which every member is where it was. Deviations, slopes and starts are
those of the first linkage, each at its own place.
-/

namespace Joinery

open Joinery.Dense

variable {α : Type}

/-- The constraint with other numbers for its ends. -/
def Constraint.renumbered (home : Nat → Nat) (con : Constraint Nat α) : Constraint Nat α :=
  { con with bond := con.bond.map home }

/-- Two sound linkages that differ in the order of their members and constraints only:
member `i` of the second is member `home i` of the first. -/
structure Linkage.Reorders (L L' : Linkage α) (home : Nat → Nat) : Prop where
  sound : L.Sound
  sound' : L'.Sound
  turning_eq : L'.layout.turning = L.layout.turning
  size_members : L'.members.size = L.members.size
  members : ∀ i, i < L.members.size → L'.members[i]? = L.members[home i]?
  places : ((List.range L.members.size).map home).Perm (List.range L.members.size)
  constraints : (L'.constraints.map (·.renumbered home)).Perm L.constraints

namespace Linkage

/-- Which variable of the first linkage variable `j` of the second one is. -/
def slot (L L' : Linkage α) (home : Nat → Nat) (j : Nat) : Nat :=
  match (List.range L'.members.size).find? (L'.layout.owns · j) with
  | some i => (L.layout.offset? (home i)).getD 0 + (j - (L'.layout.offset? i).getD 0)
  | none => j

/-- A state of the first linkage read as a state of the second one. -/
def reread [Zero α] (L L' : Linkage α) (home : Nat → Nat) (s : Array α) : Array α :=
  Array.ofFn fun j : Fin L.size => s.getD (slot L L' home j) 0

@[simp]
theorem size_reread [Zero α] (L L' : Linkage α) (home : Nat → Nat) (s : Array α) :
    (reread L L' home s).size = L.size := by
  simp [reread]

theorem getD_reread [Zero α] {L : Linkage α} (L' : Linkage α) (home : Nat → Nat) (s : Array α)
    {j : Nat} (hj : j < L.size) :
    (reread L L' home s).getD j 0 = s.getD (slot L L' home j) 0 :=
  Dense.getD_ofFn _ hj

namespace Reorders

variable {L L' : Linkage α} {home : Nat → Nat} {i i' j j' : Nat} (h : L.Reorders L' home)
include h

/-! ## Places -/

theorem home_lt (hi : i < L.members.size) : home i < L.members.size :=
  List.mem_range.1 (h.places.mem_iff.1 (List.mem_map_of_mem (List.mem_range.2 hi)))

theorem home_inj (hi : i < L.members.size) (hi' : i' < L.members.size) (heq : home i = home i') :
    i = i' :=
  List.inj_on_of_nodup_map (h.places.nodup_iff.2 List.nodup_range) (List.mem_range.2 hi)
    (List.mem_range.2 hi') heq

theorem ends_lt {con : Constraint Nat α} (hcon : con ∈ L'.constraints) :
    ∀ i ∈ con.bond.ends, i < L.members.size := fun i hi =>
  h.size_members ▸ h.sound'.ends_lt con hcon i hi

/-- A member is fixed in both linkages or in none. -/
theorem isFixedBy_eq (hi : i < L.members.size) :
    isFixedBy L'.constraints i = isFixedBy L.constraints (home i) := by
  unfold isFixedBy
  rw [← h.constraints.any_eq, List.any_map]
  refine Bool.eq_iff_iff.2 ?_
  simp only [List.any_eq_true, Function.comp_apply, Bool.and_eq_true, beq_iff_eq,
    Constraint.renumbered, Bond.isFixed_map]
  refine exists_congr fun con => and_congr_right fun hcon => and_congr_right fun _ => ?_
  have hfirst : (con.bond.map home).first = home con.bond.first := by cases con.bond <;> rfl
  rw [hfirst]
  exact ⟨fun heq => congrArg home heq,
    h.home_inj (h.ends_lt hcon _ con.bond.first_mem_ends) hi⟩

theorem stride_eq : L'.layout.stride = L.layout.stride :=
  congrArg freedomOfPart h.turning_eq

/-- Both linkages have as many variables. -/
theorem size_eq : L'.size = L.size := by
  have hcount : Layout.unpinned (isFixedBy L'.constraints) 0 L'.members.size =
      Layout.unpinned (isFixedBy L.constraints) 0 L.members.size := by
    unfold Layout.unpinned
    rw [← List.range_eq_range', ← List.range_eq_range', h.size_members,
      ← h.places.countP_eq fun i => !isFixedBy L.constraints i, List.countP_map]
    exact List.countP_congr fun i hi => by
      rw [Function.comp_apply, h.isFixedBy_eq (List.mem_range.1 hi)]
  rw [h.sound'.regular.size_eq, h.sound.regular.size_eq, h.stride_eq, hcount]

/-- A member has a stretch in both states or in none. -/
theorem offset?_eq_none (hi : i < L.members.size) (hk : L'.layout.offset? i = none) :
    L.layout.offset? (home i) = none := by
  rw [h.sound'.regular.offset?_eq (h.size_members ▸ hi), h.isFixedBy_eq hi] at hk
  rw [h.sound.regular.offset?_eq (h.home_lt hi)]
  split at hk
  case isTrue hfixed => exact if_pos hfixed
  case isFalse => cases hk

theorem exists_offset (hi : i < L.members.size) {k' : Nat} (hk' : L'.layout.offset? i = some k') :
    ∃ k, L.layout.offset? (home i) = some k := by
  rw [h.sound'.regular.offset?_eq (h.size_members ▸ hi), h.isFixedBy_eq hi] at hk'
  rw [h.sound.regular.offset?_eq (h.home_lt hi)]
  split at hk'
  case isTrue => cases hk'
  case isFalse hfixed => exact ⟨_, if_neg hfixed⟩

/-! ## Variables -/

/-- The variable at a place in the stretch of a member is the one at that place in the
other stretch of the member. -/
theorem slot_eq {k k' t : Nat} (hk' : L'.layout.offset? i = some k')
    (hk : L.layout.offset? (home i) = some k) (ht : t < L.layout.stride) :
    slot L L' home (k' + t) = k + t := by
  have howns : L'.layout.owns i (k' + t) = true :=
    Layout.owns_iff.2 ⟨k', hk', Nat.le_add_right k' t, by rw [h.stride_eq]; omega⟩
  have hmem : i ∈ List.range L'.members.size :=
    List.mem_range.2 (h.sound'.regular.of_offset? hk').1
  cases hfind : (List.range L'.members.size).find? (L'.layout.owns · (k' + t)) with
  | none => exact absurd howns (List.find?_eq_none.1 hfind i hmem)
  | some owner =>
    have howner : L'.layout.owns owner (k' + t) = true :=
      List.find?_some (p := fun i => L'.layout.owns i (k' + t)) hfind
    cases h.sound'.regular.owner_unique howner howns
    rw [slot, hfind]
    simp [hk, hk']

/-- Every variable lies in a stretch of both states. -/
theorem exists_slot (hj : j < L.size) :
    ∃ i k k' t, i < L.members.size ∧ L'.layout.offset? i = some k' ∧
      L.layout.offset? (home i) = some k ∧ t < L.layout.stride ∧ j = k' + t ∧
      slot L L' home j = k + t := by
  obtain ⟨i, k', t, hk', ht, rfl⟩ := h.sound'.regular.exists_offset (h.size_eq ▸ hj)
  have hi := h.size_members ▸ (h.sound'.regular.of_offset? hk').1
  obtain ⟨k, hk⟩ := h.exists_offset hi hk'
  rw [h.stride_eq] at ht
  exact ⟨i, k, k', t, hi, hk', hk, ht, rfl, h.slot_eq hk' hk ht⟩

theorem slot_lt (hj : j < L.size) : slot L L' home j < L.size := by
  obtain ⟨i, k, k', t, -, -, hk, ht, -, hslot⟩ := h.exists_slot hj
  have := h.sound.regular.offset_add_le hk
  omega

theorem slot_inj (hj : j < L.size) (hj' : j' < L.size)
    (heq : slot L L' home j = slot L L' home j') : j = j' := by
  obtain ⟨i, k, m, t, hi, hm, hk, ht, rfl, hslot⟩ := h.exists_slot hj
  obtain ⟨i', k', m', t', hi', hm', hk', ht', rfl, hslot'⟩ := h.exists_slot hj'
  rw [hslot, hslot'] at heq
  have howns : L.layout.owns (home i) (k + t) = true :=
    Layout.owns_iff.2 ⟨k, hk, Nat.le_add_right k t, by omega⟩
  have howns' : L.layout.owns (home i') (k + t) = true :=
    Layout.owns_iff.2 ⟨k', hk', by omega, by omega⟩
  cases h.home_inj hi hi' (h.sound.regular.owner_unique howns howns')
  cases hm.symm.trans hm'
  cases hk.symm.trans hk'
  omega

/-- A variable belongs to a member in both linkages or in none. -/
theorem owns_eq (hi : i < L.members.size) (hj : j < L.size) :
    L'.layout.owns i j = L.layout.owns (home i) (slot L L' home j) := by
  obtain ⟨i', k, k', t, hi', hk', hk, ht, rfl, hslot⟩ := h.exists_slot hj
  have howns' : L'.layout.owns i' (k' + t) = true :=
    Layout.owns_iff.2 ⟨k', hk', Nat.le_add_right k' t, by rw [h.stride_eq]; omega⟩
  have howns : L.layout.owns (home i') (k + t) = true :=
    Layout.owns_iff.2 ⟨k, hk, Nat.le_add_right k t, by omega⟩
  rw [hslot, Bool.eq_iff_iff]
  constructor
  · intro ho
    rwa [h.sound'.regular.owner_unique ho howns']
  · intro ho
    rwa [h.home_inj hi hi' (h.sound.regular.owner_unique ho howns)]

/-- A variable is the same coordinate of a member in both linkages. -/
theorem coordinate?_eq (hi : i < L.members.size) (hj : j < L.size) :
    L'.layout.coordinate? i j = L.layout.coordinate? (home i) (slot L L' home j) := by
  by_cases hplaces : L'.layout.owns i j = true
  · obtain ⟨k', hk', hle, hlt⟩ := Layout.owns_iff.1 hplaces
    obtain ⟨k, hk⟩ := h.exists_offset hi hk'
    obtain ⟨t, rfl⟩ := Nat.exists_eq_add_of_le hle
    rw [h.stride_eq] at hlt
    rw [h.slot_eq hk' hk (by omega)]
    simp [Layout.coordinate?, hk, hk']
  · have hplaces' := hplaces
    rw [h.owns_eq hi hj] at hplaces'
    rw [Layout.coordinate?_of_not_places fun hp => hplaces hp.owns,
      Layout.coordinate?_of_not_places fun hp => hplaces' hp.owns]

/-! ## States -/

section States

variable [Scalar α] {s : Array α}

theorem startPose_eq (hi : i < L.members.size) :
    L'.startPose i = L.startPose (home i) := by
  unfold startPose
  rw [h.members i hi]

/-- A member is in the state read anew where it was. -/
theorem pose_reread (hi : i < L.members.size) :
    L'.pose (reread L L' home s) i = L.pose s (home i) := by
  have hstart := h.startPose_eq hi
  unfold pose
  cases hk' : L'.layout.offset? i with
  | none =>
    rw [h.offset?_eq_none hi hk']
    exact hstart
  | some k' =>
    obtain ⟨k, hk⟩ := h.exists_offset hi hk'
    have hle := h.sound'.regular.offset_add_le hk'
    rw [h.stride_eq, h.size_eq] at hle
    have hvariable : ∀ t, t < L.layout.stride →
        (reread L L' home s).getD (k' + t) 0 = s.getD (k + t) 0 := by
      intro t ht
      rw [getD_reread L' home s (by omega), h.slot_eq hk' hk ht]
    have hstride := L.layout.three_le_stride
    have hx := hvariable 0 (by omega)
    simp only [Nat.add_zero] at hx
    rw [hk, h.turning_eq, hstart]
    dsimp only
    rw [hx, hvariable 1 (by omega), hvariable 2 (by omega)]
    cases hturning : L.layout.turning with
    | false => rfl
    | true =>
      have hsix : L.layout.stride = 6 := Layout.stride_of_turning hturning
      rw [hvariable 3 (by omega), hvariable 4 (by omega), hvariable 5 (by omega)]

theorem body_reread (hi : i < L.members.size) :
    L'.body (reread L L' home s) i = L.body s (home i) := by
  rw [body, body, h.pose_reread hi, h.members i hi]

/-- A constraint deviates in the state read anew as before. -/
theorem deviation_reread {con : Constraint Nat α} (hcon : con ∈ L'.constraints) :
    L'.deviation (reread L L' home s) con = L.deviation s (con.renumbered home) := by
  have hbodies : con.bond.map (L'.body (reread L L' home s)) =
      (con.bond.map home).map (L.body s) := by
    rw [Bond.map_map]
    exact Bond.map_congr fun i hi => h.body_reread (h.ends_lt hcon i hi)
  rw [deviation, hbodies]
  rfl

theorem deviations_reread :
    (L'.deviations (reread L L' home s)).toList.Perm (L.deviations s).toList := by
  have hmap : L'.constraints.map (L'.deviation (reread L L' home s)) =
      (L'.constraints.map (·.renumbered home)).map (L.deviation s) := by
    rw [List.map_map]
    exact List.map_congr_left fun con hcon => h.deviation_reread hcon
  unfold deviations
  rw [hmap]
  exact h.constraints.map _

/-! ## Slopes -/

/-- Changing a variable and reading the state anew is doing it the other way round. -/
theorem reread_setIfInBounds (hs : s.size = L.size) (hj : j < L.size) (x : α) :
    reread L L' home (s.setIfInBounds (slot L L' home j) x) =
      (reread L L' home s).setIfInBounds j x := by
  refine ext_getD (n := L.size) (by simp) (by simp) ?_
  intro j' hj'
  rw [getD_reread L' home _ hj', getD_setIfInBounds (hs.symm ▸ h.slot_lt hj'),
    getD_setIfInBounds (by simpa using hj'), getD_reread L' home s hj']
  by_cases heq : j = j'
  · rw [if_pos heq, if_pos (by rw [heq])]
  · rw [if_neg heq, if_neg fun hslots => heq (h.slot_inj hj hj' hslots)]

theorem measuredSlope_reread {con : Constraint Nat α} (hcon : con ∈ L'.constraints)
    (hs : s.size = L.size) (step : α) (hj : j < L.size) :
    L'.measuredSlope (reread L L' home s) step con j =
      L.measuredSlope s step (con.renumbered home) (slot L L' home j) := by
  unfold measuredSlope
  dsimp only
  rw [getD_reread L' home s hj, ← h.reread_setIfInBounds hs hj, ← h.reread_setIfInBounds hs hj,
    h.deviation_reread hcon, h.deviation_reread hcon]

/-- An array of slopes read anew has each slope at the place of its variable. -/
theorem eq_reread {f : Fin L'.size → α} {row : Array α}
    (hf : ∀ j : Fin L'.size, f j = row.getD (slot L L' home j) 0) :
    Array.ofFn f = reread L L' home row := by
  refine ext_getD (n := L.size) (by simpa using h.size_eq) (by simp) ?_
  intro j hj
  rw [getD_reread L' home row hj, Dense.getD_ofFn f (h.size_eq.symm ▸ hj), hf]

theorem measuredRow_reread {con : Constraint Nat α} (hcon : con ∈ L'.constraints)
    (hs : s.size = L.size) (step : α) :
    L'.measuredRow (reread L L' home s) step con =
      reread L L' home (L.measuredRow s step (con.renumbered home)) := by
  refine h.eq_reread fun j => ?_
  have hj : j < L.size := h.size_eq ▸ j.isLt
  have howns : (con.bond.ends.any fun i => L'.layout.owns i j) =
      (con.bond.map home).ends.any fun i => L.layout.owns i (slot L L' home j) := by
    rw [Bond.ends_map, List.any_map, Bool.eq_iff_iff, List.any_eq_true, List.any_eq_true]
    refine exists_congr fun i => and_congr_right fun hi => ?_
    rw [h.owns_eq (h.ends_lt hcon i hi) hj, Function.comp_apply]
  rw [measuredRow, Dense.getD_ofFn _ (h.slot_lt hj), howns, h.measuredSlope_reread hcon hs step hj]
  rfl

theorem separationRow_reread (weight : α) (hi : i < L.members.size) (hi' : i' < L.members.size)
    (apart : Bool) : L'.separationRow (reread L L' home s) weight i i' apart =
      reread L L' home (L.separationRow s weight (home i) (home i') apart) := by
  have hheading : L'.heading? (reread L L' home s) i i' apart =
      L.heading? s (home i) (home i') apart := by
    unfold heading?
    rw [h.pose_reread hi, h.pose_reread hi']
  unfold separationRow
  rw [hheading]
  cases L.heading? s (home i) (home i') apart with
  | none =>
    refine ext_getD (n := L.size) (by simpa using h.size_eq) (by simp) ?_
    intro j hj
    rw [getD_reread L' home _ hj]
    simp [Array.getD]
  | some unit =>
    refine h.eq_reread fun j => ?_
    have hj : j < L.size := h.size_eq ▸ j.isLt
    rw [Dense.getD_ofFn _ (h.slot_lt hj)]
    unfold along
    rw [h.coordinate?_eq hi hj, h.coordinate?_eq hi' hj]

/-- The slopes of a constraint are what they were, each with its variable. -/
theorem slopeRow_reread {con : Constraint Nat α} (hcon : con ∈ L'.constraints)
    (hs : s.size = L.size) (step : α) :
    L'.slopeRow (reread L L' home s) step con =
      reread L L' home (L.slopeRow s step (con.renumbered home)) := by
  have hends := h.ends_lt hcon
  have hmeasured := h.measuredRow_reread hcon hs step
  obtain ⟨id, bond, tolerance, weight⟩ := con
  cases bond with
  | fixed i => exact hmeasured
  | pair relation i i' =>
    have hseparation := h.separationRow_reread (s := s) weight
      (hends i (by simp [Bond.ends])) (hends i' (by simp [Bond.ends]))
    cases relation with
    | coincident => exact hseparation false
    | distance => exact hseparation true
    | tangent => exact hseparation true
    | parallel => exact hmeasured
    | perpendicular => exact hmeasured
    | angle => exact hmeasured
    | symmetric => exact hmeasured

/-! ## Starts and ends -/

/-- The second linkage starts where the first one does. -/
theorem initialState_eq : L'.initialState = reread L L' home L.initialState := by
  have hsize := h.sound'.regular.size_initialState
  rw [h.size_eq] at hsize
  refine ext_getD hsize (by simp) ?_
  intro j hj
  obtain ⟨i, k, k', t, hi, hk', hk, ht, rfl, hslot⟩ := h.exists_slot hj
  rw [getD_reread L' home _ hj, hslot, h.sound.regular.getD_initialState hk ht,
    h.sound'.regular.getD_initialState hk' (by rwa [h.stride_eq]), h.turning_eq, h.startPose_eq hi]

/-- The poses of all members are the same, in another order. -/
theorem poses_reread : (L'.poses (reread L L' home s)).Perm (L.poses s) := by
  have hlist : ∀ (L : Linkage α) (s : Array α), L.poses s =
      (List.range L.members.size).map fun i =>
        ((L.members[i]?.map (·.id)).getD "", L.pose s i) := by
    intro L s
    refine List.ext_getElem? fun i => ?_
    by_cases hi : i < L.members.size <;> simp [poses, hi]
  rw [hlist, hlist, h.size_members]
  refine List.Perm.trans (.of_eq ?_) (h.places.map _)
  rw [List.map_map]
  refine List.map_congr_left fun i hi => ?_
  have hi' := List.mem_range.1 hi
  rw [Function.comp_apply, h.members i hi', h.pose_reread hi']

end States

end Reorders

end Linkage

/-! ## Assemblies -/

namespace Assembly

variable [Scalar α] {a b : Assembly α}

/-- Where the component at a place of another list of components is. -/
def home (a b : Assembly α) (i : Nat) : Nat :=
  (a.components.map (·.id)).idxOf ((b.components.map (·.id)).getD i "")

omit [Scalar α] in
theorem home_idxOf {id : String} (hid : id ∈ b.components.map (·.id)) :
    a.home b ((b.components.map (·.id)).idxOf id) = (a.components.map (·.id)).idxOf id := by
  rw [home, List.getD_eq_getElem _ _ (List.idxOf_lt_length_iff.2 hid), List.getElem_idxOf]

/-- A constraint is that of the other linkage once its ends are numbered as there. -/
theorem renumbered_linked {con : Constraint String α} (hcon : con ∈ b.constraints)
    (hwell' : b.WellFormed) :
    (con.linked (b.components.map (·.id))).renumbered (a.home b) =
      con.linked (a.components.map (·.id)) := by
  rw [Constraint.linked, Constraint.renumbered, Constraint.linked, Bond.map_map,
    Bond.map_congr fun id hid => home_idxOf (hwell'.ends_known con hcon id hid)]

section Shuffled

variable (hcomponents : b.components.Perm a.components)
  (hconstraints : b.constraints.Perm a.constraints) (hwell : a.WellFormed)
include hcomponents hconstraints hwell

/-- What is wrong with an assembly does not hang on the order of its lists. -/
theorem WellFormed.reorder : b.WellFormed where
  components_nodup := (hcomponents.map _).nodup_iff.2 hwell.components_nodup
  radius_ok part hpart := hwell.radius_ok part (hcomponents.mem_iff.1 hpart)
  constraints_nodup := (hconstraints.map _).nodup_iff.2 hwell.constraints_nodup
  ends_known con hcon id hid := (hcomponents.map _).mem_iff.2
    (hwell.ends_known con (hconstraints.mem_iff.1 hcon) id hid)
  numbers_ok con hcon := hwell.numbers_ok con (hconstraints.mem_iff.1 hcon)

/-- The numbers of the second linkage are those of the first in another order. -/
theorem places_reorder :
    ((List.range a.components.length).map (a.home b)).Perm (List.range a.components.length) := by
  have hplaces : ∀ c : Assembly α, c.WellFormed → List.range c.components.length =
      (c.components.map (·.id)).map (c.components.map (·.id)).idxOf := by
    intro c hc
    refine List.ext_getElem (by simp) ?_
    intro i hi hi'
    rw [List.getElem_range, List.getElem_map, hc.components_nodup.idxOf_getElem]
  have hhome : (List.range a.components.length).map (a.home b) =
      (b.components.map (·.id)).map (a.components.map (·.id)).idxOf := by
    rw [← hcomponents.length_eq, hplaces b (hwell.reorder hcomponents hconstraints), List.map_map]
    exact List.map_congr_left fun id hid => home_idxOf hid
  rw [hhome, hplaces a hwell]
  exact (hcomponents.map _).map _

/-- An assembly with its lists in another order has a linkage in another order. -/
theorem reorders_linkage (initial : PositionMap α) (turning : Bool) :
    (a.linkage initial turning).Reorders (b.linkage initial turning) (a.home b) where
  sound := Linkage.sound_linkage hwell _ _
  sound' := Linkage.sound_linkage (hwell.reorder hcomponents hconstraints) _ _
  turning_eq := rfl
  size_members := by simpa [linkage] using hcomponents.length_eq
  members i hi := by
    have hwell' := hwell.reorder hcomponents hconstraints
    have hlt : i < b.components.length := by simpa [linkage, hcomponents.length_eq] using hi
    have hat : b.components[i]? = some b.components[i] := List.getElem?_eq_getElem hlt
    obtain ⟨j, hj⟩ := List.mem_iff_getElem?.1 (hcomponents.mem_iff.1 (List.getElem_mem hlt))
    have hplace : a.home b i = j := by
      rw [← a.idxOf_id hwell hj, ← home_idxOf (List.mem_map_of_mem (List.getElem_mem hlt)),
        b.idxOf_id hwell' hat]
    rw [getElem?_members, getElem?_members, hplace, hj, hat]
  places := by simpa [linkage] using a.places_reorder hcomponents hconstraints hwell
  constraints := by
    have hwell' := hwell.reorder hcomponents hconstraints
    show ((b.constraints.map _).map _).Perm _
    rw [List.map_map]
    refine List.Perm.trans (.of_eq ?_) (hconstraints.map _)
    exact List.map_congr_left fun con hcon => a.renumbered_linked hcon hwell'

end Shuffled

end Assembly

end Joinery
