import Mathlib
import Joinery.Exchange.Constraint
import Joinery.Proofs.Decimal.RoundTrip
import Joinery.Proofs.Scalar.Double
/-!
# Constraints are read back

A constraint is written flat, its own fields among those of its kind, and what was left out is
filled in when it is read. No two names meet, so every field is found where it was put, in
whatever order the members stand. What was read is finite, so it can be written again.
-/

namespace Joinery

variable {α : Type}

/-! ## The numbers of a constraint -/

/-- The number that a relation is written with, if any. -/
def Relation.numbers : Relation α → List α
  | distance target | angle target => [target]
  | symmetric plane => [plane.offset]
  | coincident | parallel | perpendicular | tangent => []

def Bond.numbers {ρ : Type} : Bond ρ α → List α
  | fixed _ => []
  | pair relation _ _ => relation.numbers

/-- All numbers that a constraint is written with. -/
def Constraint.numbers {ρ : Type} (c : Constraint ρ α) : List α :=
  c.weight :: c.tolerance.toList ++ c.bond.numbers

namespace Exchange

/-! ## Members found by name -/

section Members

variable {l l' : List (String × Json)} {name : String} {value : Json}

theorem members?_texts (l : List (String × Json)) :
    members? (l.map fun m => (.text m.1, m.2)) = some l := by
  unfold members?
  induction l with
  | nil => rfl
  | cons m rest ih =>
    rw [List.map_cons, List.mapM_cons, ih]
    rfl

/-- Members in another order have the same names, which are texts. -/
theorem exists_texts {named : List (Literal × Json)}
    (h : (l.map fun m => (Literal.text m.1, m.2)).Perm named) :
    ∃ l', l.Perm l' ∧ named = l'.map fun m => (.text m.1, m.2) := by
  refine ⟨named.map fun m => (m.1.text?.getD "", m.2), ?_, ?_⟩
  · have hperm := h.map fun m => (m.1.text?.getD "", m.2)
    rw [List.map_map] at hperm
    exact (List.map_id l).symm ▸ hperm
  · rw [List.map_map]
    refine (List.map_id named).symm.trans (List.map_congr_left fun m hm => ?_)
    obtain ⟨m', -, rfl⟩ := List.mem_map.1 (h.mem_iff.2 hm)
    rfl

theorem lookup_of_mem (hn : (l.map (·.1)).Nodup) (h : (name, value) ∈ l) :
    l.lookup name = some value := by
  induction l with
  | nil => cases h
  | cons m rest ih =>
    rw [List.map_cons, List.nodup_cons] at hn
    rcases List.mem_cons.1 h with rfl | h
    · exact List.lookup_cons_self
    · have hne : (name == m.1) = false := by
        rw [beq_eq_false_iff_ne]
        rintro rfl
        exact hn.1 (List.mem_map.2 ⟨_, h, rfl⟩)
      rw [List.lookup_cons, hne]
      exact ih hn.2 h

theorem lookup_of_not_mem (h : name ∉ l.map (·.1)) : l.lookup name = none := by
  rw [List.lookup_eq_none_iff]
  intro m hm
  rw [bne_iff_ne]
  rintro rfl
  exact h (List.mem_map_of_mem hm)

/-- Where no name stands twice, the order of the members does not matter. -/
theorem lookup_perm (hn : (l.map (·.1)).Nodup) (h : l.Perm l') (name : String) :
    l'.lookup name = l.lookup name := by
  by_cases hmem : name ∈ l.map (·.1)
  · obtain ⟨m, hm, rfl⟩ := List.mem_map.1 hmem
    rw [lookup_of_mem hn hm, lookup_of_mem ((h.map _).nodup_iff.1 hn) (h.mem_iff.1 hm)]
  · rw [lookup_of_not_mem hmem, lookup_of_not_mem fun hmem' => hmem ((h.map _).mem_iff.2 hmem')]

theorem eachOnce_of_nodup (hn : (l.map (·.1)).Nodup) (names : List String) :
    eachOnce names l = true := by
  refine List.all_eq_true.2 fun name _ => decide_eq_true ?_
  have hcount : (l.filter fun m => m.1 == name).length = (l.map (·.1)).count name := by
    rw [List.count_eq_countP, List.countP_map, List.countP_eq_length_filter]
    rfl
  rw [hcount]
  exact List.nodup_iff_count_le_one.1 hn name

end Members

/-! ## Numbers -/

variable {form : NumberForm α}

/-- Whether a number is written as a number that is read as the same. -/
def NumberForm.Keeps (form : NumberForm α) (x : α) : Prop :=
  ∃ n, form.write x = .number n ∧ form.read (.number n) = some x

namespace NumberForm.Keeps

variable {x : α} (h : form.Keeps x)
include h

theorem read_write : form.read (form.write x) = some x := by
  obtain ⟨n, hwrite, hread⟩ := h
  rw [hwrite, hread]

theorem isTakenIn_write : isTakenIn form (form.write x) = true := by
  obtain ⟨n, hwrite, hread⟩ := h
  rw [hwrite, isTakenIn, hread]
  rfl

theorem depth_write : (form.write x).depth = 0 := by
  obtain ⟨n, hwrite, -⟩ := h
  rw [hwrite]
  rfl

/-- A number is not taken for nothing. -/
theorem optional_write {l : List (String × Json)} {name : String}
    (hl : l.lookup name = some (form.write x)) :
    Fields.optional ⟨false, l⟩ name form.read = some (some x) := by
  obtain ⟨n, hwrite, hread⟩ := h
  rw [Fields.optional, hl, hwrite]
  show (form.read (.number n)).map some = _
  rw [hread]
  rfl

end NumberForm.Keeps

/-! ## Members as they are written -/

section Written

variable {c : Constraint String α}

/-- The fields of the kind, with the kind. -/
def bondMembers (form : NumberForm α) (bond : Bond String α) : List (String × Json) :=
  ("type", .ofText bond.name) :: writeBond form bond

theorem nodup_constraintMembers : ((constraintMembers form c).map (·.1)).Nodup := by
  obtain ⟨id, bond, tolerance, weight⟩ := c
  rcases bond with a | ⟨_ | _ | _ | _ | _ | _ | _, a, b⟩ <;> cases tolerance <;>
    simp [constraintMembers, writeBond, writeRelation]

theorem lookup_tolerance :
    (constraintMembers form c).lookup "tolerance" = c.tolerance.map form.write := by
  obtain ⟨id, bond, tolerance, weight⟩ := c
  rcases bond with a | ⟨_ | _ | _ | _ | _ | _ | _, a, b⟩ <;> cases tolerance <;> rfl

theorem lookup_weight :
    (constraintMembers form c).lookup "weight" = some (form.write c.weight) := by
  obtain ⟨id, bond, tolerance, weight⟩ := c
  rcases bond with a | ⟨_ | _ | _ | _ | _ | _ | _, a, b⟩ <;> cases tolerance <;> rfl

/-- The fields of the kind are what is left of a constraint without its own. -/
theorem otherMembers_constraintMembers :
    otherMembers (constraintMembers form c) = bondMembers form c.bond := by
  obtain ⟨id, bond, tolerance, weight⟩ := c
  rcases bond with a | ⟨_ | _ | _ | _ | _ | _ | _, a, b⟩ <;> cases tolerance <;> rfl

theorem takenIn_writeRelation {relation : Relation α} (h : ∀ x ∈ relation.numbers, form.Keeps x)
    {m : String × Json} (hm : m ∈ writeRelation form relation) :
    isTakenIn form m.2 = true ∧ m.2.depth ≤ 1 := by
  cases relation with
  | distance target | angle target =>
    have hkeeps := h target List.mem_cons_self
    cases List.mem_singleton.1 hm
    exact ⟨hkeeps.isTakenIn_write, hkeeps.depth_write.trans_le (Nat.zero_le 1)⟩
  | symmetric plane =>
    have hkeeps := h plane.offset List.mem_cons_self
    cases List.mem_singleton.1 hm
    have hdepth : (writePlane form plane).depth =
        Nat.max 0 (Nat.max (form.write plane.offset).depth 0) + 1 := rfl
    refine ⟨?_, by rw [hdepth, hkeeps.depth_write]; decide⟩
    simp [writePlane, Json.ofMembers, Json.ofText, isTakenIn, areMembersTakenIn, Literal.text?,
      hkeeps.isTakenIn_write]
  | coincident | parallel | perpendicular | tangent => cases hm

theorem takenIn_bondMembers {bond : Bond String α} (h : ∀ x ∈ bond.numbers, form.Keeps x)
    {m : String × Json} (hm : m ∈ bondMembers form bond) :
    isTakenIn form m.2 = true ∧ m.2.depth ≤ 1 := by
  have htext : ∀ s, isTakenIn form (.ofText s) = true ∧ (Json.ofText s).depth ≤ 1 :=
    fun s => ⟨rfl, Nat.zero_le 1⟩
  cases bond with
  | fixed a =>
    simp only [bondMembers, writeBond, List.mem_cons, List.not_mem_nil, or_false] at hm
    rcases hm with rfl | rfl <;> exact htext _
  | pair relation a b =>
    simp only [bondMembers, writeBond, List.cons_append, List.nil_append, List.mem_cons] at hm
    rcases hm with rfl | rfl | rfl | hm
    · exact htext _
    · exact htext _
    · exact htext _
    · exact takenIn_writeRelation h hm

end Written

/-! ## Bonds -/

section Bonds

variable [Arithmetic α] {l l' : List (String × Json)}

theorem takenAxis?_axisName (axis : Axis) : takenAxis? (.ofText (axisName axis)) = some axis := by
  cases axis <;> rfl

theorem readPlane_writePlane {plane : MirrorPlane α} (h : form.Keeps plane.offset) :
    readPlaneWith? form takenAxis? (writePlane form plane) = some plane := by
  have hread : readPlaneWith? form takenAxis? (writePlane form plane) =
      (takenAxis? (.ofText (axisName plane.axis))).bind fun axis =>
        (form.read (form.write plane.offset)).bind fun offset => some ⟨axis, offset⟩ := rfl
  rw [hread, takenAxis?_axisName, h.read_write]
  rfl

/-- Relations are read from what stands under the names. -/
theorem readBond?_perm (hn : (l.map (·.1)).Nodup) (h : l.Perm l') :
    readBond? form l' = readBond? form l := by
  have hn' : (l'.map (·.1)).Nodup := (h.map _).nodup_iff.1 hn
  have hrelation : ∀ kind, readRelation? form kind l' = readRelation? form kind l := by
    intro kind
    unfold readRelation?
    simp only [eachOnce_of_nodup hn, eachOnce_of_nodup hn', Fields.required, Fields.withDefault,
      lookup_perm hn h]
  unfold readBond?
  simp only [eachOnce_of_nodup hn, eachOnce_of_nodup hn', Fields.required, lookup_perm hn h,
    hrelation]

theorem readBond?_bondMembers {bond : Bond String α} (h : ∀ x ∈ bond.numbers, form.Keeps x) :
    readBond? form (bondMembers form bond) = some bond := by
  cases bond with
  | fixed a => rfl
  | pair relation a b =>
    cases relation with
    | coincident => rfl
    | parallel => rfl
    | perpendicular => rfl
    | tangent => rfl
    | distance target =>
      have hread : readBond? form (bondMembers form (.pair (.distance target) a b)) =
          ((form.read (form.write target)).map .distance).bind fun relation =>
            some (.pair relation a b) := rfl
      rw [hread, (h target List.mem_cons_self).read_write]
      rfl
    | angle target =>
      have hread : readBond? form (bondMembers form (.pair (.angle target) a b)) =
          ((form.read (form.write target)).map .angle).bind fun relation =>
            some (.pair relation a b) := rfl
      rw [hread, (h target List.mem_cons_self).read_write]
      rfl
    | symmetric plane =>
      have hread : readBond? form (bondMembers form (.pair (.symmetric plane) a b)) =
          ((readPlaneWith? form takenAxis? (writePlane form plane)).map .symmetric).bind
            fun relation => some (.pair relation a b) := rfl
      rw [hread, readPlane_writePlane (h plane.offset List.mem_cons_self)]
      rfl

end Bonds

/-! ## Constraints -/

section Constraints

variable [Arithmetic α] {c : Constraint String α} {level : Nat} {members : List (String × Json)}

/-- Members that are read as a constraint. -/
structure ReadAs (form : NumberForm α) (level : Nat) (members : List (String × Json))
    (c : Constraint String α) : Prop where
  once : eachOnce ownNames members = true
  takenIn : ∀ m ∈ otherMembers members,
    isTakenIn form m.2 = true ∧ level + 1 + m.2.depth ≤ deepest
  id : Fields.required ⟨false, members⟩ "id" text? = some c.id
  bond : readBond? form (otherMembers members) = some c.bond
  tolerance : Fields.optional ⟨false, members⟩ "tolerance" form.read = some c.tolerance
  weight : Fields.withDefault ⟨false, members⟩ "weight" form.read 1 = some c.weight

theorem readConstraint?_eq_some_iff {j : Json} : readConstraint? form level j = some c ↔
    ∃ named members, j = .object named ∧ members? named = some members ∧
      ReadAs form level members c := by
  constructor
  · intro h
    unfold readConstraint? at h
    split at h
    case h_2 => cases h
    case h_1 named =>
      obtain ⟨members, hmembers, h⟩ := Option.bind_eq_some_iff.1 h
      dsimp only at h
      split at h
      case isTrue => cases h
      case isFalse honce =>
        split at h
        case isTrue => cases h
        case isFalse htaken =>
          obtain ⟨id, hid, h⟩ := Option.bind_eq_some_iff.1 h
          obtain ⟨bond, hbond, h⟩ := Option.bind_eq_some_iff.1 h
          obtain ⟨tolerance, htolerance, h⟩ := Option.bind_eq_some_iff.1 h
          obtain ⟨weight, hweight, h⟩ := Option.bind_eq_some_iff.1 h
          cases h
          exact ⟨named, members, rfl, hmembers, by simpa using honce,
            by simpa using htaken, hid, hbond, htolerance, hweight⟩
  · rintro ⟨named, members, rfl, hmembers, h⟩
    unfold readConstraint?
    dsimp only
    rw [hmembers]
    show (if _ then _ else if _ then _ else _) = _
    rw [if_neg (by simp [h.once]), if_neg (by simpa using h.takenIn), h.id, h.bond,
      h.tolerance, h.weight]
    rfl

/-- What is written of a constraint with numbers that are kept is read as the constraint,
whatever order its members stand in. -/
theorem readConstraint?_write (h : ∀ x ∈ c.numbers, form.Keeps x)
    (hm : (constraintMembers form c).Perm members) (hlevel : level + 2 ≤ deepest) :
    readConstraint? form level (.ofMembers members) = some c := by
  have hn : ((constraintMembers form c).map (·.1)).Nodup := nodup_constraintMembers
  have hothers : (bondMembers form c.bond).Perm (otherMembers members) := by
    rw [← otherMembers_constraintMembers]
    exact hm.filter _
  have hbond : ∀ x ∈ c.bond.numbers, form.Keeps x := fun x hx =>
    h x (by simp [Constraint.numbers, hx])
  have hn' : ((bondMembers form c.bond).map (·.1)).Nodup := by
    rw [← otherMembers_constraintMembers]
    exact hn.sublist (List.filter_sublist.map _)
  refine readConstraint?_eq_some_iff.2 ⟨_, members, rfl, members?_texts members, ?_⟩
  constructor
  case once => exact eachOnce_of_nodup ((hm.map _).nodup_iff.1 hn) _
  case takenIn =>
    intro m hmem
    obtain ⟨htaken, hdepth⟩ := takenIn_bondMembers hbond (hothers.mem_iff.2 hmem)
    exact ⟨htaken, by omega⟩
  case id =>
    rw [Fields.required, lookup_perm hn hm]
    rfl
  case bond =>
    rw [readBond?_perm hn' hothers]
    exact readBond?_bondMembers hbond
  case tolerance =>
    have hlookup := (lookup_perm hn hm "tolerance").trans lookup_tolerance
    cases htolerance : c.tolerance with
    | none =>
      rw [htolerance] at hlookup
      rw [Fields.optional, hlookup]
      rfl
    | some tolerance =>
      rw [htolerance] at hlookup
      exact (h tolerance (by simp [Constraint.numbers, htolerance])).optional_write hlookup
  case weight =>
    rw [Fields.withDefault, lookup_perm hn hm, lookup_weight]
    exact (h c.weight List.mem_cons_self).read_write

end Constraints

/-! ## What is read is finite -/

/-- Whether numbers are written and read as they should be: what is finite is kept, and
nothing else is read. -/
structure NumberForm.Faithful [Arithmetic α] (form : NumberForm α) : Prop where
  keeps : ∀ x, Arithmetic.isFinite x = true → form.Keeps x
  isFinite_read : ∀ j x, form.read j = some x → Arithmetic.isFinite x = true

section Finite

variable [Arithmetic α] [LawfulArithmetic α] (hform : form.Faithful)
include hform

omit [LawfulArithmetic α] in
theorem isFinite_withDefault {f : Fields} {name : String} {default x : α}
    (hdefault : Arithmetic.isFinite default = true)
    (h : f.withDefault name form.read default = some x) : Arithmetic.isFinite x = true := by
  unfold Fields.withDefault at h
  split at h
  · exact hform.isFinite_read _ _ h
  · cases h
    exact hdefault

theorem isFinite_readPlane {axis? : Json → Option Axis} {j : Json} {plane : MirrorPlane α}
    (h : readPlaneWith? form axis? j = some plane) : Arithmetic.isFinite plane.offset = true := by
  obtain ⟨f, -, h⟩ := Option.bind_eq_some_iff.1 h
  obtain ⟨axis, -, h⟩ := Option.bind_eq_some_iff.1 h
  obtain ⟨offset, hoffset, h⟩ := Option.bind_eq_some_iff.1 h
  cases h
  exact isFinite_withDefault hform LawfulArithmetic.isFinite_zero hoffset

omit [LawfulArithmetic α] in
theorem isFinite_required {members : List (String × Json)} {name : String}
    {make : α → Relation α} {relation : Relation α}
    (h : (Fields.required ⟨false, members⟩ name form.read).map make = some relation) :
    ∃ target, Arithmetic.isFinite target = true ∧ make target = relation := by
  obtain ⟨target, htarget, hmake⟩ := Option.map_eq_some_iff.1 h
  obtain ⟨j, -, hread⟩ := Option.bind_eq_some_iff.1 htarget
  exact ⟨target, hform.isFinite_read _ _ hread, hmake⟩

theorem isFinite_readRelation {kind : String} {members : List (String × Json)}
    {relation : Relation α} (h : readRelation? form kind members = some relation) :
    ∀ x ∈ relation.numbers, Arithmetic.isFinite x = true := by
  unfold readRelation? at h
  dsimp only at h
  -- distances and angles have a target, a mirror has its plane, the others have no number
  split at h
  case h_2 | h_5 =>
    split at h
    case isFalse => cases h
    case isTrue =>
      obtain ⟨target, hfinite, rfl⟩ := isFinite_required hform h
      exact List.forall_mem_singleton.2 hfinite
  case h_7 =>
    split at h
    case isFalse => cases h
    case isTrue =>
      obtain ⟨plane, hplane, rfl⟩ := Option.map_eq_some_iff.1 h
      refine List.forall_mem_singleton.2 ?_
      unfold Fields.withDefault at hplane
      split at hplane
      · exact isFinite_readPlane hform hplane
      · cases hplane
        exact LawfulArithmetic.isFinite_zero
  case h_8 => cases h
  all_goals
    cases h
    exact List.forall_mem_nil _

theorem isFinite_readBond {members : List (String × Json)} {bond : Bond String α}
    (h : readBond? form members = some bond) :
    ∀ x ∈ bond.numbers, Arithmetic.isFinite x = true := by
  unfold readBond? at h
  dsimp only at h
  split at h
  case isTrue => cases h
  obtain ⟨kind, -, h⟩ := Option.bind_eq_some_iff.1 h
  obtain ⟨a, -, h⟩ := Option.bind_eq_some_iff.1 h
  split at h
  case isTrue =>
    cases h
    exact List.forall_mem_nil _
  split at h
  case isTrue => cases h
  obtain ⟨b, -, h⟩ := Option.bind_eq_some_iff.1 h
  obtain ⟨relation, hrelation, h⟩ := Option.bind_eq_some_iff.1 h
  cases h
  exact isFinite_readRelation hform hrelation

/-- Every number of a constraint that was read is finite. -/
theorem isFinite_readConstraint {level : Nat} {j : Json} {c : Constraint String α}
    (h : readConstraint? form level j = some c) :
    ∀ x ∈ c.numbers, Arithmetic.isFinite x = true := by
  obtain ⟨named, members, -, -, hread⟩ := readConstraint?_eq_some_iff.1 h
  intro x hx
  rw [Constraint.numbers, List.cons_append, List.mem_cons, List.mem_append] at hx
  rcases hx with rfl | hx | hx
  · exact isFinite_withDefault hform LawfulArithmetic.isFinite_one hread.weight
  · have htolerance := hread.tolerance
    rw [Option.mem_toList.1 hx] at htolerance
    unfold Fields.optional at htolerance
    split at htolerance
    · cases htolerance
    · obtain ⟨y, hy, heq⟩ := Option.map_eq_some_iff.1 htolerance
      cases heq
      exact hform.isFinite_read _ _ hy
    · cases htolerance
  · exact isFinite_readBond hform hread.bond x hx

end Finite

/-! ## Doubles -/

/-- Doubles are written with all their digits. -/
theorem exactDoubles_faithful : exactDoubles.Faithful where
  keeps x hx := by
    obtain ⟨n, hwrite, hread⟩ := Double.double?_numeral? hx
    exact ⟨n, by simp only [exactDoubles, hwrite], hread⟩
  isFinite_read j x h := by
    cases j with
    | number n =>
      have hread : n.double? = some x := h
      unfold Numeral.double? at hread
      split at hread
      case isTrue hfinite =>
        cases hread
        exact hfinite
      case isFalse => cases hread
    | null | bool | string | array | object => cases h

/-- Constraints with finite numbers are read back from what is written of them, in whatever
order their fields are put, wherever there is room for a plane inside them. So is whatever
was read as a constraint. -/
theorem constraint_round_trip (level : Nat) (hlevel : level + 2 ≤ deepest) :
    (∀ c : Constraint String Float, (∀ x ∈ c.numbers, Arithmetic.isFinite x = true) →
      ∃ written, writeConstraint exactDoubles c = .object written ∧
        ∀ members, written.Perm members →
          readConstraint? exactDoubles level (.object members) = some c) ∧
    ∀ (j : Json) (c : Constraint String Float), readConstraint? exactDoubles level j = some c →
      readConstraint? exactDoubles level (writeConstraint exactDoubles c) = some c := by
  have hround : ∀ c : Constraint String Float,
      (∀ x ∈ c.numbers, Arithmetic.isFinite x = true) →
        ∀ members, (constraintMembers exactDoubles c).Perm members →
          readConstraint? exactDoubles level (.ofMembers members) = some c :=
    fun c hc members hm =>
      readConstraint?_write (fun x hx => exactDoubles_faithful.keeps x (hc x hx)) hm hlevel
  constructor
  · intro c hc
    refine ⟨_, rfl, fun named hm => ?_⟩
    obtain ⟨members, hperm, rfl⟩ := exists_texts hm
    exact hround c hc members hperm
  · intro j c hj
    exact hround c (isFinite_readConstraint exactDoubles_faithful hj) _ (.refl _)

/-- A table with two legs on either side of a plane. -/
def mirroredLegs : Constraint String Float where
  id := "legs"
  bond := .pair (.symmetric ⟨.y, -0.1⟩) "left" "right"
  tolerance := some 1e-9
  weight := 2.5

/-- The two legs, with their fields the other way round. -/
theorem constraint_round_trip_legs :
    (0 + 2 ≤ deepest ∧ ∀ x ∈ mirroredLegs.numbers, Arithmetic.isFinite x = true) ∧
      ∃ written, writeConstraint exactDoubles mirroredLegs = .object written ∧
        readConstraint? exactDoubles 0 (.object written.reverse) = some mirroredLegs := by
  have hlevel : 0 + 2 ≤ deepest := by decide
  have hfinite : ∀ x ∈ mirroredLegs.numbers, Arithmetic.isFinite x = true := by decide +kernel
  obtain ⟨written, hwritten, hread⟩ := (constraint_round_trip 0 hlevel).1 mirroredLegs hfinite
  exact ⟨⟨hlevel, hfinite⟩, written, hwritten, hread _ (List.reverse_perm written).symm⟩

end Exchange
end Joinery
