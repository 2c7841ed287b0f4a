import Mathlib
import Joinery.Proofs.Linkage.Scratch
import Joinery.Proofs.Newton.Gradient
/-!
# Either end first

It does not matter which end of a constraint is named first. What deviates is the same from
either end (`Bond.deviationOf_comm`), so constraints whose ends are exchanged have the same
deviations and the same measured slopes. The closed form of a separation looks along the way
from the first end to the second: the way back is the opposite one, and it pulls the
opposite ends. Only members that meet have no way between them; those that are to be apart
are pushed along the first axis whichever is named first, so their row changes its sign.
-/

namespace Joinery

open Joinery.Dense Joinery.Newton

/-! ## Exchanged ends -/

section Swaps

variable {ρ σ α : Type}

/-- The bond with its ends exchanged. -/
def Bond.swap : Bond ρ α → Bond ρ α
  | fixed a => fixed a
  | pair relation a b => pair relation b a

def Constraint.swap (c : Constraint ρ α) : Constraint ρ α := { c with bond := c.bond.swap }

/-- Constraints of which the chosen ones have their ends exchanged. -/
def Constraint.swapped (chosen : Nat → Bool) (constraints : List (Constraint ρ α)) :
    List (Constraint ρ α) :=
  constraints.mapIdx fun i c => if chosen i then c.swap else c

def Assembly.swapped (a : Assembly α) (chosen : Nat → Bool) : Assembly α :=
  { a with constraints := Constraint.swapped chosen a.constraints }

/-- Whether a relation holds its ends apart, also where they meet. -/
def Relation.setsApart : Relation α → Bool
  | distance _ | tangent => true
  | _ => false

def Linkage.swapped (L : Linkage α) (chosen : Nat → Bool) : Linkage α :=
  { L with constraints := Constraint.swapped chosen L.constraints }

theorem Bond.map_swap (f : ρ → σ) (bond : Bond ρ α) : bond.swap.map f = (bond.map f).swap := by
  cases bond <;> rfl

theorem Bond.mem_ends_swap {bond : Bond ρ α} {x : ρ} : x ∈ bond.swap.ends ↔ x ∈ bond.ends := by
  cases bond with
  | fixed a => rfl
  | pair relation a b => simp [swap, ends, or_comm]

namespace Constraint

variable {chosen : Nat → Bool} {constraints : List (Constraint ρ α)} {i : Nat}

@[simp]
theorem length_swapped : (swapped chosen constraints).length = constraints.length := by
  simp [swapped]

theorem getElem?_swapped : (swapped chosen constraints)[i]? =
    constraints[i]?.map fun c => if chosen i then c.swap else c := by
  simp [swapped]

/-- A function that does not tell the ends of a constraint apart has the same values for
constraints with exchanged ends. -/
theorem map_swapped {β : Type} {f : Constraint ρ α → β} (h : ∀ c, f c.swap = f c) :
    (swapped chosen constraints).map f = constraints.map f := by
  refine List.ext_getElem? fun i => ?_
  rw [List.getElem?_map, getElem?_swapped, List.getElem?_map, Option.map_map]
  congr 1
  funext c
  rw [Function.comp_apply]
  split
  · exact h c
  · rfl

theorem mem_swapped {c : Constraint ρ α} (hc : c ∈ swapped chosen constraints) :
    ∃ c' ∈ constraints, c = c' ∨ c = c'.swap := by
  obtain ⟨i, hi⟩ := List.mem_iff_getElem?.1 hc
  rw [getElem?_swapped, Option.map_eq_some_iff] at hi
  obtain ⟨c', hc', rfl⟩ := hi
  refine ⟨c', List.mem_of_getElem? hc', ?_⟩
  split
  · exact .inr rfl
  · exact .inl rfl

theorem isFixedBy_swapped {chosen : Nat → Bool} {constraints : List (Constraint Nat α)} (i : Nat) :
    isFixedBy (swapped chosen constraints) i = isFixedBy constraints i := by
  have hany : ∀ l : List (Constraint Nat α), isFixedBy l i =
      (l.map fun c => c.bond.isFixed && c.bond.first == i).any fun b => b := by
    intro l
    rw [List.any_map]
    rfl
  rw [hany, hany, map_swapped]
  intro c
  cases hbond : c.bond <;> simp [swap, Bond.swap, hbond, Bond.isFixed]

end Constraint

end Swaps

/-! ## Assemblies -/

section Assemblies

variable {α : Type} [Scalar α] {a : Assembly α} {chosen : Nat → Bool}

theorem Constraint.defect?_swap {ρ : Type} (c : Constraint ρ α) : c.swap.defect? = c.defect? := by
  obtain ⟨id, bond, tolerance, weight⟩ := c
  cases bond <;> rfl

/-- What is wrong with an assembly does not hang on which end is named first. -/
theorem Assembly.WellFormed.swapped (h : a.WellFormed) (chosen : Nat → Bool) :
    (a.swapped chosen).WellFormed where
  components_nodup := h.components_nodup
  radius_ok := h.radius_ok
  constraints_nodup := by
    show ((Constraint.swapped chosen a.constraints).map _).Nodup
    rw [Constraint.map_swapped fun _ => rfl]
    exact h.constraints_nodup
  ends_known con hcon id hid := by
    obtain ⟨con', hcon', rfl | rfl⟩ := Constraint.mem_swapped hcon
    · exact h.ends_known con hcon' id hid
    · exact h.ends_known con' hcon' id (Bond.mem_ends_swap.1 hid)
  numbers_ok con hcon := by
    obtain ⟨con', hcon', rfl | rfl⟩ := Constraint.mem_swapped hcon
    · exact h.numbers_ok con hcon'
    · rw [Constraint.defect?_swap]
      exact h.numbers_ok con' hcon'

theorem Assembly.linkage_swapped (a : Assembly α) (initial : PositionMap α) (turning : Bool)
    (chosen : Nat → Bool) :
    (a.swapped chosen).linkage initial turning = (a.linkage initial turning).swapped chosen := by
  have hlinked : (a.swapped chosen).constraints.map
      (Constraint.linked (a.components.map (·.id))) =
        Constraint.swapped chosen
          (a.constraints.map (Constraint.linked (a.components.map (·.id)))) := by
    refine List.ext_getElem? fun i => ?_
    rw [List.getElem?_map, swapped, Constraint.getElem?_swapped, Constraint.getElem?_swapped,
      List.getElem?_map, Option.map_map, Option.map_map]
    congr 1
    funext c
    rw [Function.comp_apply, Function.comp_apply]
    split
    · rw [Constraint.linked, Constraint.swap, Bond.map_swap]
      rfl
    · rfl
  have hfixed : isFixedBy (Constraint.swapped chosen
      (a.constraints.map (Constraint.linked (a.components.map (·.id))))) =
        isFixedBy (a.constraints.map (Constraint.linked (a.components.map (·.id)))) :=
    funext Constraint.isFixedBy_swapped
  unfold linkage Linkage.swapped
  dsimp only
  rw [show (a.swapped chosen).components = a.components from rfl, hlinked, hfixed]

end Assemblies

/-! ## Deviations -/

theorem Displacement.cosine_comm (d e : Displacement ℝ) : d.cosine e = e.cosine d := by
  have hdot : d.dot e = e.dot d := by
    show d.x * e.x + d.y * e.y + d.z * e.z = e.x * d.x + e.y * d.y + e.z * d.z
    ring
  unfold cosine
  rw [hdot, mul_comm d.length]

/-- A point is as far from the image of another as that is from its own. -/
theorem MirrorPlane.distance_mirror_comm (m : MirrorPlane ℝ) (p q : Point ℝ) :
    q.distance (m.mirror p) = p.distance (m.mirror q) := by
  have hsquares : (m.mirror p - q).lengthSquared = (m.mirror q - p).lengthSquared := by
    obtain ⟨axis, offset⟩ := m
    rw [Displacement.lengthSquared_eq, Displacement.lengthSquared_eq]
    cases axis with
    | x =>
      show (Arithmetic.twice offset - p.x - q.x) * (Arithmetic.twice offset - p.x - q.x) +
          (p.y - q.y) * (p.y - q.y) + (p.z - q.z) * (p.z - q.z) =
        (Arithmetic.twice offset - q.x - p.x) * (Arithmetic.twice offset - q.x - p.x) +
          (q.y - p.y) * (q.y - p.y) + (q.z - p.z) * (q.z - p.z)
      ring
    | y =>
      show (p.x - q.x) * (p.x - q.x) +
          (Arithmetic.twice offset - p.y - q.y) * (Arithmetic.twice offset - p.y - q.y) +
          (p.z - q.z) * (p.z - q.z) =
        (q.x - p.x) * (q.x - p.x) +
          (Arithmetic.twice offset - q.y - p.y) * (Arithmetic.twice offset - q.y - p.y) +
          (q.z - p.z) * (q.z - p.z)
      ring
    | z =>
      show (p.x - q.x) * (p.x - q.x) + (p.y - q.y) * (p.y - q.y) +
          (Arithmetic.twice offset - p.z - q.z) * (Arithmetic.twice offset - p.z - q.z) =
        (q.x - p.x) * (q.x - p.x) + (q.y - p.y) * (q.y - p.y) +
          (Arithmetic.twice offset - q.z - p.z) * (Arithmetic.twice offset - q.z - p.z)
      ring
  exact congrArg Real.sqrt hsquares

/-- A relation deviates the same whichever body stands first. -/
theorem Relation.deviation_comm (relation : Relation ℝ) (x y : Body ℝ) :
    relation.deviation x y = relation.deviation y x := by
  cases relation with
  | coincident => exact x.separation_comm y
  | distance target => exact congrArg (· - target) (x.separation_comm y)
  | parallel =>
    exact congrArg (fun q => Arithmetic.abs q - 1) (x.direction.cosine_comm y.direction)
  | perpendicular => exact x.direction.cosine_comm y.direction
  | angle target =>
    exact congrArg (fun q => q * Scalar.radian - target) (x.direction.angle_comm y.direction)
  | tangent =>
    show x.separation y - (x.radius + y.radius) = y.separation x - (y.radius + x.radius)
    rw [x.separation_comm, add_comm x.radius]
  | symmetric plane => exact plane.distance_mirror_comm _ _

theorem Bond.deviationOf_comm {ρ : Type} (bond : Bond ρ ℝ) (x y : Body ℝ) :
    bond.deviationOf x (some y) = bond.deviationOf y (some x) := by
  cases bond with
  | fixed a => rfl
  | pair relation a b => exact relation.deviation_comm x y

namespace Linkage

variable {L : Linkage ℝ} {s : Array ℝ} {step : ℝ} {con : Constraint Nat ℝ} {i i' : Nat}
  {chosen : Nat → Bool}

theorem deviation_swap (L : Linkage ℝ) (s : Array ℝ) (con : Constraint Nat ℝ) :
    L.deviation s con.swap = L.deviation s con := by
  obtain ⟨id, bond, tolerance, weight⟩ := con
  refine congrArg (weight * ·) ?_
  cases bond with
  | fixed a => rfl
  | pair relation a b => exact relation.deviation_comm _ _

theorem deviations_swapped (L : Linkage ℝ) (s : Array ℝ) (chosen : Nat → Bool) :
    (L.swapped chosen).deviations s = L.deviations s := by
  have hmap : (Constraint.swapped chosen L.constraints).map (L.deviation s) =
      L.constraints.map (L.deviation s) := Constraint.map_swapped (L.deviation_swap s)
  exact congrArg List.toArray hmap

/-! ## Slopes -/

theorem measuredRow_swap (L : Linkage ℝ) (s : Array ℝ) (step : ℝ) (con : Constraint Nat ℝ) :
    L.measuredRow s step con.swap = L.measuredRow s step con := by
  refine ext_getD (n := L.size) (by simp [measuredRow]) (by simp [measuredRow]) fun j hj => ?_
  rw [getD_measuredRow hj, getD_measuredRow hj, measuredSlope, measuredSlope, deviation_swap,
    deviation_swap]

/-- The way back is the opposite way. -/
theorem way_swap (L : Linkage ℝ) (s : Array ℝ) (i i' : Nat) : L.way s i' i = -L.way s i i' :=
  Displacement.ext_iff.2 ⟨(neg_sub _ _).symm, (neg_sub _ _).symm, (neg_sub _ _).symm⟩

theorem separation_swap (L : Linkage ℝ) (s : Array ℝ) (i i' : Nat) :
    L.separation s i' i = L.separation s i i' := Body.separation_comm _ _

theorem along_neg (L : Linkage ℝ) (i : Nat) (d : Displacement ℝ) (j : Nat) :
    L.along i (-d) j = -L.along i d j := by
  have hneg : -d = d * (-1 : ℝ) := Displacement.ext_iff.2
    ⟨(mul_neg_one _).symm, (mul_neg_one _).symm, (mul_neg_one _).symm⟩
  rw [hneg, along_mul, mul_neg_one]

/-- To pull the ends the other way is to pull them as they are, against the way. -/
theorem pull_swap (L : Linkage ℝ) (i i' : Nat) (d : Displacement ℝ) :
    L.pull i' i d = (L.pull i i' d).map fun x => -x := by
  refine ext_getD (n := L.size) (by simp) (by simp) fun j hj => ?_
  have hlt : j < (L.pull i i' d).size := by simpa using hj
  rw [getD_pull hj, getD_of_lt (by simpa using hj), Array.getElem_map, ← getD_of_lt hlt,
    getD_pull hj, along_neg, along_neg, neg_add, neg_neg, add_comm]

theorem pull_neg (L : Linkage ℝ) (i i' : Nat) (d : Displacement ℝ) :
    L.pull i' i (-d) = L.pull i i' d := by
  refine ext_getD (n := L.size) (by simp) (by simp) fun j hj => ?_
  rw [getD_pull hj, getD_pull hj, along_neg, along_neg, along_neg, neg_neg, add_comm]

/-- The slopes of members that are apart are the same from either end. -/
theorem separationRow_swap_apart (hapart : 1e-12 < L.separation s i i') (weight : ℝ)
    (apart : Bool) :
    L.separationRow s weight i' i apart = L.separationRow s weight i i' apart := by
  have hheading : L.heading? s i i' apart = some (L.way s i i' / L.separation s i i') :=
    if_pos hapart
  have hback : L.heading? s i' i apart = some (L.way s i' i / L.separation s i' i) :=
    if_pos (hapart.trans_eq (separation_swap L s i i').symm)
  have hopposite : L.way s i' i / L.separation s i' i * weight =
      -(L.way s i i' / L.separation s i i' * weight) := by
    have hcoordinate : ∀ x : ℝ, -x / L.separation s i i' * weight =
        -(x / L.separation s i i' * weight) := fun x => by ring
    rw [way_swap, separation_swap]
    exact Displacement.ext_iff.2 ⟨hcoordinate _, hcoordinate _, hcoordinate _⟩
  rw [separationRow_of_heading hheading, separationRow_of_heading hback, hopposite, pull_neg]

/-- Members that meet are pushed apart along the first axis, the second one forward. -/
theorem separationRow_swap_meeting (hmeeting : L.separation s i i' ≤ 1e-12) (weight : ℝ) :
    L.separationRow s weight i' i true = (L.separationRow s weight i i' true).map fun x => -x := by
  have hheading : ∀ {m m'}, L.separation s m m' ≤ 1e-12 → L.heading? s m m' true = some .xUnit :=
    fun h => if_neg (not_lt.2 h)
  rw [separationRow_of_heading (hheading hmeeting),
    separationRow_of_heading (hheading ((separation_swap L s i i').trans_le hmeeting)), pull_swap]

/-- Members that meet and should have no slopes. -/
theorem separationRow_meeting (hmeeting : L.separation s i i' ≤ 1e-12) (weight : ℝ) :
    L.separationRow s weight i i' false = Array.replicate L.size 0 := by
  have hheading : L.heading? s i i' false = none := if_neg (not_lt.2 hmeeting)
  rw [separationRow, hheading]

/-- Whether a constraint holds two members apart that meet in a state. -/
def Pushes (L : Linkage ℝ) (s : Array ℝ) (con : Constraint Nat ℝ) : Prop :=
  ∃ relation i i', con.bond = .pair relation i i' ∧ relation.setsApart = true ∧
    L.separation s i i' ≤ 1e-12

/-- The row of members that are pushed apart changes its sign with their order. -/
theorem slopeRow_swap_of_pushes (h : L.Pushes s con) (step : ℝ) :
    L.slopeRow s step con.swap = (L.slopeRow s step con).map fun x => -x := by
  obtain ⟨relation, i, i', hbond, hapart, hmeeting⟩ := h
  unfold slopeRow Constraint.swap
  rw [hbond]
  cases relation with
  | distance t => exact separationRow_swap_meeting hmeeting con.weight
  | tangent => exact separationRow_swap_meeting hmeeting con.weight
  | _ => cases hapart

/-- All other rows stay as they are. -/
theorem slopeRow_swap_of_not_pushes (h : ¬L.Pushes s con) (step : ℝ) :
    L.slopeRow s step con.swap = L.slopeRow s step con := by
  have hmeasured := L.measuredRow_swap s step con
  obtain ⟨id, bond, tolerance, weight⟩ := con
  cases bond with
  | fixed a => rfl
  | pair relation i i' =>
    -- members that are to be apart are not pushed, so they are apart
    have hlong : relation.setsApart = true → 1e-12 < L.separation s i i' := fun hapart =>
      not_le.1 fun hmeeting => h ⟨relation, i, i', rfl, hapart, hmeeting⟩
    cases relation with
    | coincident =>
      by_cases hapart : 1e-12 < L.separation s i i'
      · exact separationRow_swap_apart hapart weight false
      · have hmeeting := not_lt.1 hapart
        refine Eq.trans ?_ (separationRow_meeting hmeeting weight).symm
        exact separationRow_meeting ((separation_swap L s i i').trans_le hmeeting) weight
    | distance t => exact separationRow_swap_apart (hlong rfl) weight true
    | tangent => exact separationRow_swap_apart (hlong rfl) weight true
    | parallel => exact hmeasured
    | perpendicular => exact hmeasured
    | angle => exact hmeasured
    | symmetric => exact hmeasured

theorem row_slopes_swapped {n : Nat} (hcon : L.constraints[n]? = some con) (s : Array ℝ)
    (step : ℝ) : ((L.swapped chosen).slopes s step).row n =
      L.slopeRow s step (if chosen n then con.swap else con) := by
  have hswapped : (L.swapped chosen).constraints[n]? =
      some (if chosen n then con.swap else con) := by
    rw [swapped, Constraint.getElem?_swapped, hcon, Option.map_some]
  obtain ⟨hn, heq⟩ := List.getElem?_eq_some_iff.1 hswapped
  rw [row_slopes _ s step hn, heq]
  exact slopeRow_congr rfl rfl

end Linkage

/-! ## Assemblies with exchanged ends -/

/-- What a relation measures does not depend on which body is named first. So an assembly with
the ends of any constraints exchanged has a linkage as well, with the same deviations in
every state, and with the same slopes, except that the row of an exchanged constraint that
pushes apart members that meet is negated. -/
theorem swapped_alike :
    (∀ (bond : Bond String ℝ) (x y : Body ℝ),
      bond.deviationOf x (some y) = bond.deviationOf y (some x)) ∧
    ∀ (a : Assembly ℝ) (initial : PositionMap ℝ) (turning : Bool) (L : Linkage ℝ),
      a.link? initial turning = .ok L → ∀ chosen : Nat → Bool,
        ∃ L', (a.swapped chosen).link? initial turning = .ok L' ∧
          ∀ s : Array ℝ, L.size ≤ s.size →
            (∃ deviations, L.deviations? s = .ok deviations ∧
              L'.deviations? s = .ok deviations) ∧
            ∀ step, ∃ slopes slopes', L.slopes? s step = .ok slopes ∧
              L'.slopes? s step = .ok slopes' ∧ slopes'.rows = slopes.rows ∧
              slopes'.cols = slopes.cols ∧ ∀ n con, L.constraints[n]? = some con →
                (chosen n = true ∧ L.Pushes s con →
                  slopes'.row n = (slopes.row n).map fun x => -x) ∧
                (¬(chosen n = true ∧ L.Pushes s con) → slopes'.row n = slopes.row n) := by
  refine ⟨Bond.deviationOf_comm, ?_⟩
  intro a initial turning L hlink chosen
  obtain ⟨hwell, -, rfl⟩ := Assembly.link?_eq_ok_iff.1 hlink
  have hsound := Linkage.sound_linkage hwell initial turning
  have hsound' := Linkage.sound_linkage (hwell.swapped chosen) initial turning
  have hlink' := Assembly.link?_of_finite Exact.isFinite_eq (hwell.swapped chosen) initial turning
  rw [a.linkage_swapped] at hsound' hlink'
  refine ⟨_, hlink', fun s hs => ?_⟩
  have hread := hsound.canRead_of_le hs
  have hread' := hsound'.canRead_of_le (s := s) hs
  refine ⟨⟨_, if_pos hread, ?_⟩, fun step => ⟨_, _, if_pos hread, if_pos hread', ?_, rfl, ?_⟩⟩
  · rw [← Linkage.deviations_swapped _ s chosen]
    exact if_pos hread'
  · simp [Linkage.swapped]
  · intro n con hcon
    obtain ⟨hn, hrow⟩ := List.getElem?_eq_some_iff.1 hcon
    rw [Linkage.row_slopes_swapped hcon, Linkage.row_slopes _ s step hn, hrow]
    constructor
    · rintro ⟨hchosen, hpushes⟩
      rw [if_pos hchosen]
      exact Linkage.slopeRow_swap_of_pushes hpushes step
    · intro hnot
      split
      case isTrue hchosen =>
        exact Linkage.slopeRow_swap_of_not_pushes (fun hpushes => hnot ⟨hchosen, hpushes⟩) step
      case isFalse => rfl

/-- A pin that stands in its hole and should stand out of it. -/
noncomputable def dowel : Assembly ℝ where
  metadata := ⟨⟨0⟩, "dowel", 1, ⟨⟨2000, 1, 1⟩, 0, 0⟩, ⟨⟨2000, 1, 1⟩, 0, 0⟩⟩
  components := [.placed "hole" .origin, .placed "pin" .origin]
  constraints := [⟨"mount", .fixed "hole", none, 1⟩,
    ⟨"depth", .pair (.distance 1) "hole" "pin", none, 1⟩,
    ⟨"seat", .pair .coincident "hole" "pin", none, 1⟩]

theorem wellFormed_dowel : dowel.WellFormed := by
  constructor <;> simp [dowel, Component.placed, Component.radiusProblem?, Component.radius,
    IdMap.get?, IdMap.empty, Constraint.defect?, Constraint.defect?.ofBond, Bond.ends,
    Relation.defect?]
  norm_num

/-- With all ends exchanged the pin is pushed the other way, and nothing else changes. -/
theorem swapped_alike_dowel : ∃ L L' slopes slopes', dowel.link? .empty false = .ok L ∧
    (dowel.swapped fun _ => true).link? .empty false = .ok L' ∧
    L.slopes? #[0, 0, 0] 1 = .ok slopes ∧ L'.slopes? #[0, 0, 0] 1 = .ok slopes' ∧
    slopes.row 1 = #[1, 0, 0] ∧ slopes'.row 1 = #[-1, 0, 0] ∧ slopes'.row 2 = slopes.row 2 := by
  have hlink := Assembly.link?_of_finite Exact.isFinite_eq wellFormed_dowel .empty false
  obtain ⟨L', hlink', halike⟩ := swapped_alike.2 dowel .empty false _ hlink fun _ => true
  obtain ⟨slopes, slopes', hslopes, hslopes', -, -, hrow⟩ := (halike #[0, 0, 0] le_rfl).2 1
  have hmeeting : (dowel.linkage .empty false).separation #[0, 0, 0] 0 1 ≤ 1e-12 := by
    have hzero : (dowel.linkage .empty false).separation #[0, 0, 0] 0 1 = 0 := by
      show Real.sqrt ((0 - 0) * (0 - 0) + (0 - 0) * (0 - 0) + (0 - 0) * (0 - 0)) = 0
      simp
    rw [hzero]
    norm_num
  have hpushed : slopes.row 1 = #[1, 0, 0] := by
    have hheading : (dowel.linkage .empty false).heading? #[0, 0, 0] 0 1 true = some .xUnit :=
      if_neg (not_lt.2 hmeeting)
    obtain ⟨-, rfl⟩ := unless_eq_ok hslopes
    rw [Linkage.row_slopes _ _ _ (by decide)]
    show (dowel.linkage .empty false).separationRow #[0, 0, 0] 1 0 1 true = _
    rw [Linkage.separationRow_of_heading hheading]
    refine ext_getD (n := 3) (Linkage.size_pull ..) rfl fun j hj => ?_
    rw [Linkage.getD_pull hj, Linkage.along_of_pinned rfl, zero_add, ← Nat.zero_add j,
      Linkage.along_offset rfl hj, Displacement.getD_mul, mul_one]
    interval_cases j <;> rfl
  have hback := (hrow 1 _ rfl).1 ⟨rfl, .distance 1, 0, 1, rfl, rfl, hmeeting⟩
  refine ⟨_, L', slopes, slopes', hlink, hlink', hslopes, hslopes', hpushed, ?_, ?_⟩
  · rw [hback, hpushed]
    simp
  · refine (hrow 2 _ rfl).2 ?_
    rintro ⟨-, relation, i, i', hbond, hapart, -⟩
    cases hbond
    cases hapart

end Joinery
