import Joinery.Proofs.Linkage.Link
import Joinery.Proofs.Space.Finite
/-!
# Where a state places what

The stretch of a member starts after those of the unpinned members before it.
Stretches do not meet, and the initial state has in each the numbers of the pose
that its member starts from.
-/

namespace Joinery

namespace Layout

theorem stride_of_turning {l : Layout} (h : l.turning = true) : l.stride = 6 := by
  rw [stride, h]
  rfl

variable {pinned : Nat → Bool}

/-- How many of `n` members from `s` on are not pinned. -/
def unpinned (pinned : Nat → Bool) (s n : Nat) : Nat :=
  (List.range' s n).countP fun i => !pinned i

theorem unpinned_cons (s n : Nat) :
    unpinned pinned s (n + 1) = (if pinned s then 0 else 1) + unpinned pinned (s + 1) n := by
  unfold unpinned
  rw [List.range'_succ, List.countP_cons, Nat.add_comm]
  cases pinned s <;> rfl

theorem unpinned_concat (s n : Nat) :
    unpinned pinned s (n + 1) = unpinned pinned s n + if pinned (s + n) then 0 else 1 := by
  unfold unpinned
  rw [List.range'_concat, List.countP_append, Nat.one_mul]
  cases h : pinned (s + n) <;> simp [h]

/-- A member that is not pinned counts among those up to any later one. -/
theorem unpinned_lt {i n : Nat} (hi : pinned i = false) (h : i < n) :
    unpinned pinned 0 i + 1 ≤ unpinned pinned 0 n := by
  induction n with
  | zero => omega
  | succ n ih =>
    rw [unpinned_concat]
    rcases Nat.lt_or_eq_of_le (Nat.lt_succ_iff.1 h) with h | rfl
    · have := ih h
      omega
    · simp [hi]

/-- Every number below the count is that of the unpinned members before one of them. -/
theorem exists_unpinned {q n : Nat} (h : q < unpinned pinned 0 n) :
    ∃ i, i < n ∧ pinned i = false ∧ unpinned pinned 0 i = q := by
  induction n with
  | zero => exact absurd h (Nat.not_lt_zero q)
  | succ n ih =>
    rw [unpinned_concat, Nat.zero_add] at h
    by_cases hq : q < unpinned pinned 0 n
    · obtain ⟨i, hi, hfree, hcount⟩ := ih hq
      exact ⟨i, Nat.lt_succ_of_lt hi, hfree, hcount⟩
    · cases hn : pinned n with
      | true => simp [hn] at h; omega
      | false => simp [hn] at h; exact ⟨n, Nat.lt_succ_self n, hn, by omega⟩

/-- What is assigned to each of `n` members from `s` on. -/
theorem getElem?_assign (stride : Nat) {start s n i : Nat} (hi : i < n) :
    (assign stride start ((List.range' s n).map pinned))[i]? =
      some (if pinned (s + i) then none else some (start + stride * unpinned pinned s i)) := by
  induction n generalizing start s i with
  | zero => omega
  | succ n ih =>
    rw [List.range'_succ, List.map_cons]
    cases i with
    | zero => cases pinned s <;> simp [assign, unpinned]
    | succ i =>
      rw [unpinned_cons, show s + (i + 1) = s + 1 + i by omega]
      cases h : pinned s with
      | true => simp [assign, ih (Nat.lt_of_succ_lt_succ hi)]
      | false =>
        simp [assign, ih (Nat.lt_of_succ_lt_succ hi), Nat.mul_add, Nat.add_assoc]

/-- Blocks laid out one after the other are found where their stretches start. -/
theorem getElem?_stretches {α : Type} {stride : Nat} {block : Nat → List α}
    (hblock : ∀ i, (block i).length = stride) {s n i t : Nat} (hi : i < n)
    (hpinned : pinned (s + i) = false) (ht : t < stride) :
    ((List.range' s n).flatMap fun k => if pinned k then [] else block k)[
        stride * unpinned pinned s i + t]? = (block (s + i))[t]? := by
  induction n generalizing s i with
  | zero => omega
  | succ n ih =>
    rw [List.range'_succ, List.flatMap_cons]
    cases i with
    | zero =>
      have hs : pinned s = false := hpinned
      simp [hs, unpinned, List.getElem?_append_left, hblock, ht]
    | succ i =>
      rw [show s + (i + 1) = s + 1 + i by omega] at hpinned ⊢
      rw [unpinned_cons, ← ih (Nat.lt_of_succ_lt_succ hi) hpinned]
      cases h : pinned s with
      | true => simp
      | false =>
        -- the first block is skipped whole, so the place falls by its length
        have hlen : (block s).length = stride := hblock s
        simp only [Bool.false_eq_true, if_false]
        rw [List.getElem?_append_right (by rw [hlen, Nat.mul_add]; omega), hlen]
        congr 1
        rw [Nat.mul_add]
        omega

end Layout

namespace Linkage

variable {α : Type} {L : Linkage α}

/-- Whether a layout gives stretches to the members that no constraint fixes. -/
def Regular (L : Linkage α) : Prop :=
  L.layout = .ofPinned L.layout.turning
    ((List.range L.members.size).map (isFixedBy L.constraints))

theorem Regular.size_offsets (h : L.Regular) : L.layout.offsets.size = L.members.size := by
  have hoffsets := congrArg Layout.offsets h
  unfold Layout.ofPinned at hoffsets
  simp [hoffsets]

theorem Regular.offset?_eq (h : L.Regular) {i : Nat} (hi : i < L.members.size) :
    L.layout.offset? i =
      if isFixedBy L.constraints i then none
      else some (L.layout.stride * Layout.unpinned (isFixedBy L.constraints) 0 i) := by
  have hoffsets := congrArg Layout.offsets h
  unfold Layout.ofPinned at hoffsets
  rw [Layout.offset?, hoffsets, Array.getD_eq_getD_getElem?, List.getElem?_toArray,
    List.range_eq_range', Layout.getElem?_assign _ hi]
  simp [Layout.stride]

theorem Regular.offset?_eq_none (h : L.Regular) {i : Nat} (hi : L.members.size ≤ i) :
    L.layout.offset? i = none := by
  have hoffsets := congrArg Layout.offsets h
  unfold Layout.ofPinned at hoffsets
  rw [Layout.offset?, hoffsets]
  simp [Array.getD, Nat.not_lt.2 hi]

theorem Regular.size_eq (h : L.Regular) :
    L.size = L.layout.stride * Layout.unpinned (isFixedBy L.constraints) 0 L.members.size := by
  have hsize : L.layout.size = L.layout.stride *
      ((List.range L.members.size).map (isFixedBy L.constraints)).count false :=
    congrArg Layout.size h
  rw [size, hsize, Layout.unpinned, List.count_eq_countP, List.countP_map, List.range_eq_range']
  congr 1
  refine List.countP_congr ?_
  intro i _
  simp [Function.comp]

/-- A stretch is that of an unpinned member. -/
theorem Regular.of_offset? (h : L.Regular) {i k : Nat} (hk : L.layout.offset? i = some k) :
    i < L.members.size ∧ isFixedBy L.constraints i = false ∧
      k = L.layout.stride * Layout.unpinned (isFixedBy L.constraints) 0 i := by
  by_cases hi : i < L.members.size
  · rw [h.offset?_eq hi] at hk
    split at hk
    · cases hk
    · rename_i hfixed
      cases hk
      exact ⟨hi, by simpa using hfixed, rfl⟩
  · rw [h.offset?_eq_none (Nat.le_of_not_lt hi)] at hk
    cases hk

/-- Every stretch lies in the state. -/
theorem Regular.offset_add_le (h : L.Regular) {i k : Nat} (hk : L.layout.offset? i = some k) :
    k + L.layout.stride ≤ L.size := by
  obtain ⟨hi, hfixed, rfl⟩ := h.of_offset? hk
  rw [h.size_eq, ← Nat.mul_succ]
  exact Nat.mul_le_mul_left _ (Layout.unpinned_lt hfixed hi)

/-- Stretches of different members do not meet. -/
theorem Regular.apart (h : L.Regular) {i i' k k' : Nat} (hk : L.layout.offset? i = some k)
    (hk' : L.layout.offset? i' = some k') (hne : i ≠ i') :
    k + L.layout.stride ≤ k' ∨ k' + L.layout.stride ≤ k := by
  obtain ⟨-, hfixed, rfl⟩ := h.of_offset? hk
  obtain ⟨-, hfixed', rfl⟩ := h.of_offset? hk'
  rw [← Nat.mul_succ, ← Nat.mul_succ]
  rcases Nat.lt_or_gt_of_ne hne with hlt | hlt
  · exact .inl (Nat.mul_le_mul_left _ (Layout.unpinned_lt hfixed hlt))
  · exact .inr (Nat.mul_le_mul_left _ (Layout.unpinned_lt hfixed' hlt))

/-- Every variable lies in a stretch. -/
theorem Regular.exists_offset (h : L.Regular) {j : Nat} (hj : j < L.size) :
    ∃ i k t, L.layout.offset? i = some k ∧ t < L.layout.stride ∧ j = k + t := by
  rw [h.size_eq] at hj
  have hstride : 0 < L.layout.stride := Nat.pos_of_mul_pos_right (Nat.zero_lt_of_lt hj)
  obtain ⟨i, hi, hfree, hcount⟩ := Layout.exists_unpinned (Nat.div_lt_of_lt_mul hj)
  refine ⟨i, _, j % L.layout.stride, ?_, Nat.mod_lt j hstride, (Nat.div_add_mod j _).symm⟩
  rw [h.offset?_eq hi, hfree, hcount]
  rfl

/-- A linkage whose places are there: the layout is that of the members, and the
ends of constraints are members. -/
structure Sound (L : Linkage α) : Prop where
  regular : L.Regular
  ends_lt : ∀ c ∈ L.constraints, ∀ i ∈ c.bond.ends, i < L.members.size

/-- A sound linkage can read what is at least as long as a state. -/
theorem Sound.canRead_of_le (h : Sound L) {s : Array α} (hs : L.size ≤ s.size) :
    L.canRead s = true := by
  simpa [Linkage.canRead, hs] using h.ends_lt

/-- The states of a sound linkage can be read. -/
theorem Sound.canRead (h : Sound L) {s : Array α} (hs : s.size = L.size) : L.canRead s = true :=
  h.canRead_of_le (Nat.le_of_eq hs.symm)

theorem length_coordinates (turning : Bool) (p : Pose α) :
    (coordinates turning p).length = freedomOfPart turning := by
  cases turning <;> rfl

/-- What a state holds of the first `n` members. -/
def stretches (L : Linkage α) (pose : Nat → Pose α) (n : Nat) : List α :=
  (List.range n).flatMap fun i =>
    if L.layout.isPinned i then [] else coordinates L.layout.turning (pose i)

theorem stretches_succ (pose : Nat → Pose α) (n : Nat) :
    L.stretches pose (n + 1) = L.stretches pose n ++
      if L.layout.isPinned n then [] else coordinates L.layout.turning (pose n) := by
  rw [stretches, List.range_succ, List.flatMap_append, List.flatMap_singleton]
  rfl

theorem Regular.length_stretches (h : L.Regular) (pose : Nat → Pose α) {n : Nat}
    (hn : n ≤ L.members.size) :
    (L.stretches pose n).length =
      L.layout.stride * Layout.unpinned (isFixedBy L.constraints) 0 n := by
  induction n with
  | zero => rfl
  | succ n ih =>
    rw [stretches_succ, List.length_append, ih (by omega), Layout.unpinned_concat, Nat.mul_add,
      Nat.zero_add, Layout.isPinned, h.offset?_eq (by omega)]
    cases isFixedBy L.constraints n with
    | true => rfl
    | false => simpa using! length_coordinates L.layout.turning (pose n)

theorem Regular.size_stateOf (h : L.Regular) (pose : Nat → Pose α) :
    (L.stateOf pose).size = L.size :=
  (h.length_stretches pose (Nat.le_refl _)).trans h.size_eq.symm

/-- A state made from poses has in each stretch the numbers of one pose. -/
theorem Regular.getElem?_stateOf (h : L.Regular) (pose : Nat → Pose α) {i k t : Nat}
    (hk : L.layout.offset? i = some k) (ht : t < L.layout.stride) :
    (L.stateOf pose)[k + t]? = (coordinates L.layout.turning (pose i))[t]? := by
  have hpinned : ∀ k ∈ List.range L.members.size,
      L.layout.isPinned k = isFixedBy L.constraints k := by
    intro k hk
    rw [Layout.isPinned, h.offset?_eq (List.mem_range.1 hk)]
    cases isFixedBy L.constraints k <;> rfl
  obtain ⟨hi, hfixed, rfl⟩ := h.of_offset? hk
  have hblocks : ((List.range' 0 L.members.size).flatMap fun k =>
      if isFixedBy L.constraints k then [] else coordinates L.layout.turning (pose k))[
        L.layout.stride * Layout.unpinned (isFixedBy L.constraints) 0 i + t]? =
      (coordinates L.layout.turning (pose (0 + i)))[t]? :=
    Layout.getElem?_stretches (fun k => length_coordinates _ (pose k)) hi
      (by rw [Nat.zero_add]; exact hfixed) ht
  rw [Nat.zero_add, ← List.range_eq_range'] at hblocks
  rw [stateOf, List.getElem?_toArray, ← hblocks]
  congr 1
  rw [List.flatMap_def, List.flatMap_def]
  refine congrArg List.flatten (List.map_congr_left fun k hk => ?_)
  rw [hpinned k hk]

/-- A variable in a stretch starts at the number that the pose of its member has
there. -/
theorem Regular.getD_initialState [Scalar α] (h : L.Regular) {i k t : Nat}
    (hk : L.layout.offset? i = some k) (ht : t < L.layout.stride) :
    L.initialState.getD (k + t) 0 =
      (coordinates L.layout.turning (L.startPose i)).getD t 0 := by
  rw [initialState, Array.getD_eq_getD_getElem?, h.getElem?_stateOf L.startPose hk ht,
    List.getD_eq_getElem?_getD]

variable [Scalar α]

theorem regular_linkage (a : Assembly α) (initial : PositionMap α) (turning : Bool) :
    (a.linkage initial turning).Regular := by
  simp [Regular, Assembly.linkage, Layout.ofPinned]

theorem sound_linkage {a : Assembly α} (hwell : a.WellFormed) (initial : PositionMap α)
    (turning : Bool) : Sound (a.linkage initial turning) where
  regular := regular_linkage a initial turning
  ends_lt c hc i hi := by simpa [Assembly.linkage] using Assembly.ends_lt_linked hwell c hc i hi

theorem Regular.size_initialState (h : L.Regular) : L.initialState.size = L.size :=
  h.size_stateOf L.startPose

theorem Sound.deviations?_eq (h : Sound L) {s : Array α} (hs : s.size = L.size) :
    L.deviations? s = .ok (L.deviations s) := if_pos (h.canRead hs)

theorem startPose_eq {i : Nat} (hi : i < L.members.size) :
    L.startPose i = L.members[i].start := by
  simp [startPose, hi]

/-- A linkage whose members start from finite numbers starts from a finite state. -/
theorem isFinite_initialState (h : ∀ m ∈ L.members, m.StartsFinite) {x : α}
    (hx : x ∈ L.initialState) : Arithmetic.isFinite x = true := by
  rw [initialState, stateOf, List.mem_toArray, List.mem_flatMap] at hx
  obtain ⟨i, hi, hx⟩ := hx
  have hi' := List.mem_range.1 hi
  have hm := h _ (Array.getElem_mem hi')
  split at hx
  · cases hx
  · rw [startPose_eq hi', coordinates, List.mem_append] at hx
    rcases hx with hx | hx
    · exact Point.isFinite_iff.1 hm.position x hx
    · split at hx
      · exact EulerAngles.isFinite_iff.1 hm.orientation x hx
      · cases hx

theorem isFinite_getD_initialState [LawfulArithmetic α] (h : ∀ m ∈ L.members, m.StartsFinite)
    (j : Nat) : Arithmetic.isFinite (L.initialState.getD j 0) = true := by
  rw [Array.getD_eq_getD_getElem?]
  cases hx : L.initialState[j]? with
  | none => exact LawfulArithmetic.isFinite_zero
  | some x => exact isFinite_initialState h (Array.mem_of_getElem? hx)

/-- The members of an assembly whose components start from finite numbers. -/
theorem startsFinite_members {a : Assembly α} {initial : PositionMap α} {turning : Bool}
    (h : ∀ part ∈ a.components, (part.member initial).StartsFinite) :
    ∀ m ∈ (a.linkage initial turning).members, m.StartsFinite := by
  intro m hm
  unfold Assembly.linkage at hm
  rw [List.mem_toArray, List.mem_map] at hm
  obtain ⟨part, hpart, rfl⟩ := hm
  exact h part hpart

end Linkage

end Joinery
