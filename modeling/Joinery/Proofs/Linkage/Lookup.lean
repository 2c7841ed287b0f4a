import Joinery.Proofs.Linkage.Acceptance
/-!
# Ends looked up by name

A constraint can be measured without a linkage: its ends are looked up by name, and
a map places them. Where the names are there this is the deviation in the initial
state of the linkage from that map, whatever was pinned and however the state is laid
out (`Constraint.errorIn_eq_deviation`). Where a name is missing, the first one that
is stands for the constraint (`Constraint.errorIn_eq_error`).
-/

namespace Joinery

variable {α : Type}

/-- Looking up ends stops at the first one that fails. -/
theorem Bond.traverse_eq_error {ρ σ ε : Type} {f : ρ → Except ε σ} {bond : Bond ρ α} {x : ρ}
    {before after : List ρ} {e : ε} (hends : bond.ends = before ++ x :: after)
    (hbefore : ∀ y ∈ before, ∃ z, f y = .ok z) (hx : f x = .error e) :
    bond.traverse f = .error e := by
  cases bond with
  | fixed a =>
    cases before with
    | nil =>
      cases hends
      rw [traverse, hx]
      rfl
    | cons y rest => simp [ends] at hends
  | pair relation a b =>
    cases before with
    | nil =>
      cases hends
      rw [traverse, hx]
      rfl
    | cons y rest =>
      cases rest with
      | nil =>
        cases hends
        obtain ⟨z, hz⟩ := hbefore a List.mem_cons_self
        rw [traverse, hz, ok_bind, hx]
        rfl
      | cons y' rest => simp [ends] at hends

variable [Scalar α]

/-! ## Linkages at their start -/

namespace Linkage

variable {L : Linkage α}

/-- In the initial state every member has the pose it starts from. -/
theorem Regular.pose_initialState (h : L.Regular) (i : Nat) :
    L.pose L.initialState i = L.startPose i := by
  unfold pose
  cases hk : L.layout.offset? i with
  | none => rfl
  | some k =>
    have hstride := L.layout.three_le_stride
    have hfirst : ∀ t < L.layout.stride, L.initialState.getD (k + t) 0 =
        (coordinates L.layout.turning (L.startPose i)).getD t 0 :=
      fun t ht => h.getD_initialState hk ht
    dsimp only
    rw [← Nat.add_zero k, hfirst 0 (by omega), Nat.add_zero, hfirst 1 (by omega),
      hfirst 2 (by omega)]
    split
    case isFalse => rfl
    case isTrue hturning =>
      have hsix : L.layout.stride = 6 := Layout.stride_of_turning hturning
      rw [hfirst 3 (by omega), hfirst 4 (by omega), hfirst 5 (by omega), hturning]
      rfl

end Linkage

/-! ## Assemblies at their start -/

section Start

variable {a : Assembly α} {initial : PositionMap α} {id : String} {i : Nat} {part : Component α}

omit [Scalar α] in
/-- A component is found by its identifier at its place among all. -/
theorem Assembly.component?_eq (a : Assembly α) (id : String) :
    a.component? id = a.components[(a.components.map (·.id)).idxOf id]? := by
  rw [component?, List.find?_eq_getElem?_findIdx, List.idxOf, List.findIdx_map]
  rfl

omit [Scalar α] in
theorem Assembly.component?_eq_none_iff :
    a.component? id = none ↔ id ∉ a.components.map (·.id) := by
  rw [component?_eq, List.getElem?_eq_none_iff, ← List.length_map (·.id), ← Nat.not_lt,
    List.idxOf_lt_length_iff]

theorem Assembly.getElem?_members (a : Assembly α) (initial : PositionMap α) (turning : Bool)
    (i : Nat) :
    (a.linkage initial turning).members[i]? = a.components[i]?.map (Component.member initial) := by
  simp [linkage]

/-- The body that a component is at the start. -/
theorem Assembly.body_initialState (turning : Bool) (hi : a.components[i]? = some part) :
    (a.linkage initial turning).body (a.linkage initial turning).initialState i =
      ⟨⟨(initial.get? part.id).getD part.position, part.orientation⟩, part.radius⟩ := by
  rw [Linkage.body, (Linkage.regular_linkage a initial turning).pose_initialState,
    a.startPose_linkage hi, getElem?_members, hi]
  rfl

/-- The body that an end of a constraint names, where the map has it or else where
it is. -/
def Constraint.endIn (con : Constraint String α) (a : Assembly α) (positions : PositionMap α)
    (id : String) : Except (InputError α) (Body α) :=
  match a.component? id with
  | some part => .ok ⟨⟨(positions.get? id).getD part.position, part.orientation⟩, part.radius⟩
  | none => .error (.unknownComponent con.id id)

theorem Constraint.errorIn_eq (con : Constraint String α) (a : Assembly α)
    (positions : PositionMap α) :
    con.errorIn a positions =
      (con.bond.traverse (con.endIn a positions) >>= fun bond => .ok (con.weight * bond.deviation)) :=
  rfl

theorem Constraint.endIn_eq_ok {con : Constraint String α} (turning : Bool)
    (h : id ∈ a.components.map (·.id)) :
    con.endIn a initial id = .ok ((a.linkage initial turning).body
      (a.linkage initial turning).initialState ((a.components.map (·.id)).idxOf id)) := by
  cases hpart : a.component? id with
  | none => exact absurd h (Assembly.component?_eq_none_iff.1 hpart)
  | some part =>
    have hname : part.id = id := by
      simpa using List.find?_some (p := fun c : Component α => c.id == id) hpart
    rw [endIn, hpart]
    rw [Assembly.component?_eq] at hpart
    rw [a.body_initialState turning hpart, hname]

/-- Looking up the ends of a constraint by name gives it the deviation that it has
in the linkage at the start. -/
theorem Constraint.errorIn_eq_deviation {con : Constraint String α} (turning : Bool)
    (h : ∀ id ∈ con.bond.ends, id ∈ a.components.map (·.id)) :
    con.errorIn a initial = .ok ((a.linkage initial turning).deviation
      (a.linkage initial turning).initialState (con.linked (a.components.map (·.id)))) := by
  rw [errorIn_eq, Bond.traverse_eq_ok fun id hid => endIn_eq_ok turning (h id hid), ok_bind,
    Linkage.deviation, linked, Bond.map_map]

/-! ## Names that are missing -/

variable {con : Constraint String α}

/-- The first end that is not there is the error. -/
theorem Constraint.errorIn_eq_error {before after : List String}
    (hends : con.bond.ends = before ++ id :: after)
    (hbefore : ∀ other ∈ before, other ∈ a.components.map (·.id))
    (hid : id ∉ a.components.map (·.id)) :
    con.errorIn a initial = .error (.unknownComponent con.id id) := by
  have hmissing : con.endIn a initial id = .error (.unknownComponent con.id id) := by
    rw [endIn, Assembly.component?_eq_none_iff.2 hid]
  have hthere : ∀ other ∈ before, ∃ body, con.endIn a initial other = .ok body :=
    fun other hother => ⟨_, endIn_eq_ok false (hbefore other hother)⟩
  rw [errorIn_eq, Bond.traverse_eq_error hends hthere hmissing]
  rfl

/-- A constraint has no deviation exactly when an end of it is not there. -/
theorem Constraint.errorIn_fails_iff :
    (∃ e, con.errorIn a initial = .error e) ↔
      ∃ id ∈ con.bond.ends, id ∉ a.components.map (·.id) := by
  constructor
  · rintro ⟨e, he⟩
    by_contra hall
    push Not at hall
    cases he.symm.trans (errorIn_eq_deviation false hall)
  · rintro ⟨id, hid, hmissing⟩
    have hsome : (con.bond.ends.find? fun id => id ∉ a.components.map (·.id)).isSome := by
      rw [List.find?_isSome]
      exact ⟨id, hid, decide_eq_true hmissing⟩
    obtain ⟨first, hfirst⟩ := Option.isSome_iff_exists.1 hsome
    obtain ⟨hmissing', before, after, hends, hbefore⟩ := List.find?_eq_some_iff_append.1 hfirst
    refine ⟨_, errorIn_eq_error hends (fun other hother => ?_) (of_decide_eq_true hmissing')⟩
    simpa using hbefore other hother

end Start

end Joinery
