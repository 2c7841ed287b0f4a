import Mathlib
import Joinery.Decimal.Readout
import Joinery.Proofs.Linkage.Restart
import Joinery.Proofs.Newton.Convergence
/-!
# Outcomes applied to their assembly

Applying an outcome moves and turns the components, counts two edits and changes
nothing else. The assembly that it leaves starts where the outcome ends, so a
constraint measured there, by the names of its ends, has the deviation that the
outcome reports, which was computed from the numbers of a state.
-/

namespace Joinery

/-! ## Edits -/

namespace Assembly

variable {α : Type} {a b : Assembly α} {now : Stamp}

theorem touch?_eq_ok_iff :
    a.touch? now = .ok b ↔ a.metadata.version ≠ 4294967295 ∧
      b = { a with metadata :=
        { a.metadata with version := a.metadata.version + 1, modified := now } } := by
  unfold touch?
  split
  case isTrue h => simp [h]
  case isFalse h => simp [h, eq_comm]

end Assembly

/-- The component where the maps have it, and as it was where they do not. -/
def Component.posed {α : Type} (positions : PositionMap α) (orientations : OrientationMap α)
    (part : Component α) : Component α :=
  { part with
    position := (positions.get? part.id).getD part.position
    orientation := (orientations.get? part.id).getD part.orientation }

namespace Assembly

variable {α : Type} {a b : Assembly α} {now : Stamp}

/-- The assembly with its components where the maps have them, after as many edits. -/
def edited (a : Assembly α) (now : Stamp) (edits : UInt32) (positions : PositionMap α)
    (orientations : OrientationMap α) : Assembly α where
  metadata := { a.metadata with version := a.metadata.version + edits, modified := now }
  components := a.components.map (Component.posed positions orientations)
  constraints := a.constraints

theorem applyPositions?_eq_ok_iff {positions : PositionMap α} :
    a.applyPositions? now positions = .ok b ↔
      a.metadata.version ≠ 4294967295 ∧ b = a.edited now 1 positions .empty :=
  touch?_eq_ok_iff

theorem applyOrientations?_eq_ok_iff {orientations : OrientationMap α} :
    a.applyOrientations? now orientations = .ok b ↔
      a.metadata.version ≠ 4294967295 ∧ b = a.edited now 1 .empty orientations :=
  touch?_eq_ok_iff

/-- Moving all components and then turning them is one edit more than either. -/
theorem edited_edited (positions : PositionMap α) (orientations : OrientationMap α) :
    (a.edited now 1 positions .empty).edited now 1 .empty orientations =
      a.edited now 2 positions orientations := by
  have hversion : a.metadata.version + 1 + 1 = a.metadata.version + 2 := UInt32.add_assoc ..
  simp only [edited, hversion, List.map_map]
  rfl

theorem rearranges_edited {edits : UInt32} {positions : PositionMap α}
    {orientations : OrientationMap α} :
    (a.edited now edits positions orientations).Rearranges a where
  constraints := rfl
  components := by simp [edited, Component.posed]

end Assembly

/-- An outcome can be applied where two more edits can be counted. -/
theorem Newton.Outcome.applyTo?_eq_ok_iff {α : Type} {o : Newton.Outcome α} {a b : Assembly α}
    {now : Stamp} :
    o.applyTo? now a = .ok b ↔
      a.metadata.version ≤ 4294967293 ∧ b = a.edited now 2 o.positions o.orientations := by
  have hroom : a.metadata.version ≤ 4294967293 ↔
      a.metadata.version ≠ 4294967295 ∧ a.metadata.version + 1 ≠ 4294967295 := by
    grind
  unfold applyTo?
  rw [hroom]
  constructor
  · intro h
    obtain ⟨moved, hmoved, h⟩ := bind_eq_ok h
    obtain ⟨hfirst, rfl⟩ := Assembly.applyPositions?_eq_ok_iff.1 hmoved
    obtain ⟨hsecond, rfl⟩ := Assembly.applyOrientations?_eq_ok_iff.1 h
    exact ⟨⟨hfirst, hsecond⟩, a.edited_edited o.positions o.orientations⟩
  · rintro ⟨⟨hfirst, hsecond⟩, rfl⟩
    rw [Assembly.applyPositions?_eq_ok_iff.2 ⟨hfirst, rfl⟩, ok_bind, ← Assembly.edited_edited]
    exact Assembly.applyOrientations?_eq_ok_iff.2 ⟨hsecond, rfl⟩

/-! ## Assemblies with the poses of a state -/

/-- Whether the positions of a state are those that components were moved to, or
those that they are placed at. -/
def Linkage.PlacedBy {α : Type} [Scalar α] (L : Linkage α) (s : Array α)
    (moved placed : PositionMap α) : Prop :=
  moved = L.positions s ∧ placed = .empty ∨ moved = .empty ∧ placed = L.positions s

namespace Assembly

variable {α : Type} [Scalar α] {a : Assembly α} {initial moved placed : PositionMap α}
  {turning : Bool} {s : Array α} {now : Stamp} {edits : UInt32}

/-- An assembly that was turned as a state has it, and is moved or placed as the
state has it, is linked to the linkage that starts from the state. -/
theorem linkage_edited (hwell : a.WellFormed)
    (h : (a.linkage initial turning).PlacedBy s moved placed) :
    (a.edited now edits moved ((a.linkage initial turning).orientations s)).linkage placed turning =
      (a.linkage initial turning).restartedAt s := by
  refine rearranges_edited.linkage_eq fun i part hi => ?_
  have hi' : (a.components.map (Component.posed moved
      ((a.linkage initial turning).orientations s)))[i]? = some part := hi
  rw [List.getElem?_map, Option.map_eq_some_iff] at hi'
  obtain ⟨original, horiginal, rfl⟩ := hi'
  have hposition : ((a.linkage initial turning).positions s).get? original.id =
      some ((a.linkage initial turning).pose s i).position :=
    a.get?_poses (·.position) hwell horiginal
  have horientation : ((a.linkage initial turning).orientations s).get? original.id =
      some ((a.linkage initial turning).pose s i).orientation :=
    a.get?_poses (·.orientation) hwell horiginal
  have hempty : (.empty : PositionMap α).get? original.id = none := rfl
  rcases h with ⟨rfl, rfl⟩ | ⟨rfl, rfl⟩ <;>
    simp [Component.member, Component.posed, hposition, horientation, hempty]

/-- Whether the constraints of an assembly, measured between the components that
they name, have the listed deviations. -/
structure Measures (b : Assembly α) (placed : PositionMap α) (deviations : Array α) : Prop where
  size_eq : deviations.size = b.constraints.length
  errorIn_eq : ∀ (i : Nat) (con : Constraint String α), b.constraints[i]? = some con →
    ∃ d, deviations[i]? = some d ∧ con.errorIn b placed = .ok d

/-- An assembly with the poses of a state measures the deviations of the state. -/
theorem measures_edited (hwell : a.WellFormed)
    (h : (a.linkage initial turning).PlacedBy s moved placed) :
    (a.edited now edits moved ((a.linkage initial turning).orientations s)).Measures placed
      ((a.linkage initial turning).deviations s) where
  size_eq := by simp [linkage, edited]
  errorIn_eq i con hi := by
    have hids : (a.edited now edits moved ((a.linkage initial turning).orientations s)
        ).components.map (·.id) = a.components.map (·.id) := rearranges_edited.ids
    have hknown := hwell.ends_known con (List.mem_of_getElem? hi)
    refine ⟨(a.linkage initial turning).deviation s (con.linked (a.components.map (·.id))), ?_, ?_⟩
    · have hi' : a.constraints[i]? = some con := hi
      simp [Linkage.deviations, linkage, hi']
    · rw [Constraint.errorIn_eq_deviation turning (hids ▸ hknown), linkage_edited hwell h, hids,
        (Linkage.regular_linkage a initial turning).deviation_restartedAt]

end Assembly

namespace Newton

variable {α : Type} [Scalar α]

/-! ## Deviations of outcomes -/

/-- The reports of an outcome go through the constraints in their order. -/
theorem getElem?_reports [Readout α] {c : Settings α} {a : Assembly α} {initial : PositionMap α}
    {o : Outcome α} (h : solve c a initial = .ok o) {i : Nat} {con : Constraint String α}
    (hi : a.constraints[i]? = some con) :
    ∃ report : ConstraintReport α, o.reports[i]? = some report ∧ report.id = con.id ∧
      o.deviations[i]? = some report.deviation := by
  obtain ⟨-, hsize, hreports⟩ := reports_eq h
  have hd : i < o.deviations.size := hsize ▸ (List.getElem?_eq_some_iff.1 hi).1
  rw [hreports]
  exact ⟨_, List.getElem?_zipWith_eq_some.2
    ⟨con, o.deviations[i], hi, by simp [hd], rfl⟩, rfl, Array.getElem?_eq_getElem hd⟩

/-- Deviations computed from a state by places are those measured by names: in the
assembly turned as the state says, with components placed as it says, and in the
assembly that a solve was applied to. A constraint cannot be measured exactly where an
end of it is not there, and the first such end is the error. -/
theorem measured_alike [Readout α] :
    (∀ (a : Assembly α) (initial : PositionMap α) (turning : Bool) (L : Linkage α) (s : Array α)
        (now : Stamp), a.link? initial turning = .ok L → s.size = L.size →
      ∃ deviations, L.deviations? s = .ok deviations ∧
        ((∃ b, a.applyOrientations? now (L.orientations s) = .ok b) ↔
          a.metadata.version ≠ 4294967295) ∧
        ∀ b, a.applyOrientations? now (L.orientations s) = .ok b →
          b.constraints = a.constraints ∧ b.Measures (L.positions s) deviations) ∧
    (∀ (c : Settings α) (a : Assembly α) (initial : PositionMap α) (o : Outcome α) (now : Stamp),
      solve c a initial = .ok o →
        ((∃ b, o.applyTo? now a = .ok b) ↔ a.metadata.version ≤ 4294967293) ∧
        ∀ b, o.applyTo? now a = .ok b →
          b.constraints = a.constraints ∧ b.Measures .empty o.deviations ∧
          ∀ (i : Nat) (con : Constraint String α), a.constraints[i]? = some con →
            ∃ report : ConstraintReport α, o.reports[i]? = some report ∧ report.id = con.id ∧
              o.deviations[i]? = some report.deviation) ∧
    ∀ (con : Constraint String α) (a : Assembly α) (placed : PositionMap α),
      ((∃ e, con.errorIn a placed = .error e) ↔
        ∃ id ∈ con.bond.ends, id ∉ a.components.map (·.id)) ∧
      ∀ before id after, con.bond.ends = before ++ id :: after →
        (∀ other ∈ before, other ∈ a.components.map (·.id)) → id ∉ a.components.map (·.id) →
        con.errorIn a placed = .error (.unknownComponent con.id id) := by
  refine ⟨?_, ?_, ?_⟩
  · intro a initial turning L s now hL hs
    obtain ⟨hwell, -, rfl⟩ := Assembly.link?_eq_ok_iff.1 hL
    refine ⟨_, (Linkage.sound_linkage hwell initial turning).deviations?_eq hs, ?_, ?_⟩
    · simp only [Assembly.applyOrientations?_eq_ok_iff, exists_and_left, exists_eq, and_true]
    · intro b hb
      obtain ⟨-, rfl⟩ := Assembly.applyOrientations?_eq_ok_iff.1 hb
      exact ⟨rfl, Assembly.measures_edited hwell (.inr ⟨rfl, rfl⟩)⟩
  · intro c a initial o now h
    refine ⟨?_, ?_⟩
    · simp only [Outcome.applyTo?_eq_ok_iff, exists_and_left, exists_eq, and_true]
    · intro b hb
      obtain ⟨-, rfl⟩ := Outcome.applyTo?_eq_ok_iff.1 hb
      refine ⟨rfl, ?_, fun i con hi => getElem?_reports h hi⟩
      obtain ⟨-, hwell, -, -⟩ := solve_eq_ok_iff.1 h
      obtain ⟨last, -, rfl⟩ := solve_eq_ok h
      exact Assembly.measures_edited hwell (.inl ⟨rfl, rfl⟩)
  · intro con a placed
    refine ⟨Constraint.errorIn_fails_iff, ?_⟩
    intro before id after hends hbefore hid
    exact Constraint.errorIn_eq_error hends hbefore hid

/-- Two sides that mirror each other about a base that is fixed between them, with
the constraints against the order of the components. -/
def carcass : Assembly Float where
  metadata := ⟨⟨0⟩, "carcass", 1, ⟨⟨2000, 1, 1⟩, 0, 0⟩, ⟨⟨2000, 1, 1⟩, 0, 0⟩⟩
  components := [
    ⟨"left", ⟨-3, 0, 0⟩, ⟨0, 0, 1⟩, .empty⟩,
    ⟨"base", ⟨0, 0, 0⟩, .identity, .empty⟩,
    ⟨"right", ⟨2, 1, 0⟩, ⟨0, 1, 0⟩, .empty⟩]
  constraints := [
    ⟨"ground", .fixed "base", none, 1⟩,
    ⟨"twins", .pair (.symmetric .centre) "right" "left", none, 2⟩,
    ⟨"width", .pair (.distance 5) "base" "right", none, 1⟩]

/-- Settings that let components turn, for one iteration. -/
def once : Settings Float := { Settings.standard with turning := true, maxIterations := 1 }

/-- A state away from the start in which components turn, a solve on doubles that
takes a step, and a hinge without its second end. -/
theorem measured_alike_carcass :
    (∃ L deviations b, carcass.link? (.ofList [("right", ⟨2, 2, 0⟩)]) true = .ok L ∧
      L.deviations? (L.initialState.map (· + 1)) = .ok deviations ∧
      carcass.applyOrientations? carcass.metadata.created
        (L.orientations (L.initialState.map (· + 1))) = .ok b ∧
      b.Measures (L.positions (L.initialState.map (· + 1))) deviations) ∧
    (∃ o b, solve once carcass .empty = .ok o ∧
      0 < o.iterations ∧ o.applyTo? carcass.metadata.created carcass = .ok b ∧
      b.Measures .empty o.deviations) ∧
    (⟨"hinge", .pair .parallel "left" "door", none, 1⟩ : Constraint String Float).errorIn carcass
      .empty = .error (.unknownComponent "hinge" "door") := by
  obtain ⟨hstate, hsolved, hmissing⟩ := measured_alike (α := Float)
  refine ⟨?_, ?_, ?_⟩
  · have hlink : (carcass.link? (.ofList [("right", ⟨2, 2, 0⟩)]) true).toOption.any (fun L =>
        decide ((L.initialState.map (· + 1)).size = L.size)) = true := by
      decide +kernel
    obtain ⟨L, hL, hsize⟩ := exists_eq_ok hlink
    obtain ⟨deviations, hdeviations, hroom, hmeasures⟩ :=
      hstate carcass _ true L _ carcass.metadata.created hL (of_decide_eq_true hsize)
    obtain ⟨b, hb⟩ := hroom.2 (by decide)
    exact ⟨L, deviations, b, hL, hdeviations, hb, (hmeasures b hb).2⟩
  · have hsolve : (solve once carcass .empty).toOption.any
        (fun o => decide (0 < o.iterations)) = true := by
      decide +kernel
    obtain ⟨o, ho, hsteps⟩ := exists_eq_ok hsolve
    obtain ⟨hroom, hmeasures⟩ := hsolved once carcass .empty o carcass.metadata.created ho
    obtain ⟨b, hb⟩ := hroom.2 (by decide)
    exact ⟨o, b, ho, of_decide_eq_true hsteps, hb, (hmeasures b hb).2.1⟩
  · exact (hmissing _ carcass .empty).2 ["left"] "door" [] rfl (by decide) (by decide)

end Newton

end Joinery
