import Joinery.Linkage.Slope
import Joinery.Proofs.Dense.Blank
import Joinery.Proofs.Dense.Entries
import Joinery.Proofs.Linkage.Layout
/-!
# What a constraint reads

The deviation of a constraint between positions reads the coordinates of its two
ends, that of one between directions reads their angles, and what is fixed does
not deviate. A constraint ignores a variable that it does not read
(`Linkage.Ignores.of_not_reads`). What it ignores has a blank slope in its row, and what
all ignore has a blank column.
-/

namespace Joinery

namespace Layout

/-- Whether variable `j` is a coordinate of the position of component `i`. -/
def Places (l : Layout) (i j : Nat) : Prop := ∃ k, l.offset? i = some k ∧ k ≤ j ∧ j < k + 3

/-- Whether variable `j` is an angle of component `i`. -/
def Turns (l : Layout) (i j : Nat) : Prop :=
  ∃ k, l.offset? i = some k ∧ k + 3 ≤ j ∧ j < k + l.stride

theorem coordinate?_of_not_places {l : Layout} {i j : Nat} (h : ¬l.Places i j) :
    l.coordinate? i j = none := by
  unfold coordinate?
  cases hk : l.offset? i with
  | none => rfl
  | some k =>
    refine if_neg fun hrange => h ⟨k, hk, hrange⟩

end Layout

/-- Whether the deviation of a bond hangs on variable `j`. -/
def Bond.Reads {α : Type} (l : Layout) (j : Nat) : Bond Nat α → Prop
  | fixed _ => False
  | pair relation a b =>
    if relation.isDirectional then l.Turns a j ∨ l.Turns b j else l.Places a j ∨ l.Places b j

/-- A bond that holds two ends to each other reads the angles or the positions
of both. -/
theorem Bond.reads_iff {α : Type} {l : Layout} {j : Nat} {bond : Bond Nat α} :
    bond.Reads l j ↔ bond.isFixed = false ∧
      ∃ i ∈ bond.ends, if bond.isDirectional then l.Turns i j else l.Places i j := by
  cases bond with
  | fixed a => simp [Reads, isFixed]
  | pair relation a b =>
    cases h : relation.isDirectional <;> simp [Reads, isFixed, ends, isDirectional, h]

/-! ## Deviations -/

section Deviations

variable {α : Type} [Scalar α] {relation : Relation α} {a b a' b' : Body α}

theorem Relation.deviation_of_directions (h : relation.isDirectional = true)
    (ha : a.direction = a'.direction) (hb : b.direction = b'.direction) :
    relation.deviation a b = relation.deviation a' b' := by
  cases relation <;> first
    | exact absurd h Bool.false_ne_true
    | simp only [deviation, ha, hb]

theorem Relation.deviation_of_positions (h : relation.isDirectional = false)
    (ha : a.pose.position = a'.pose.position) (hb : b.pose.position = b'.pose.position)
    (hra : a.radius = a'.radius) (hrb : b.radius = b'.radius) :
    relation.deviation a b = relation.deviation a' b' := by
  cases relation <;> first
    | exact absurd h.symm Bool.false_ne_true
    | simp only [deviation, Body.separation, ha, hb, hra, hrb]

end Deviations

namespace Linkage

variable {α : Type} [Scalar α] {L : Linkage α} {s s' : Array α}

theorem position_congr {i : Nat} (h : ∀ j, L.layout.Places i j → s.getD j 0 = s'.getD j 0) :
    (L.pose s i).position = (L.pose s' i).position := by
  unfold pose
  cases hk : L.layout.offset? i with
  | none => rfl
  | some k =>
    dsimp only
    rw [h k ⟨k, hk, by omega⟩, h (k + 1) ⟨k, hk, by omega⟩, h (k + 2) ⟨k, hk, by omega⟩]

theorem orientation_congr {i : Nat} (h : ∀ j, L.layout.Turns i j → s.getD j 0 = s'.getD j 0) :
    (L.pose s i).orientation = (L.pose s' i).orientation := by
  unfold pose
  cases hk : L.layout.offset? i with
  | none => rfl
  | some k =>
    dsimp only
    split
    case isTrue hturning =>
      have hstride : L.layout.stride = 6 := Layout.stride_of_turning hturning
      rw [h (k + 3) ⟨k, hk, by omega⟩, h (k + 4) ⟨k, hk, by omega⟩, h (k + 5) ⟨k, hk, by omega⟩]
    case isFalse => rfl

/-- States that give the ends of a constraint on directions the same directions, or those of
one between positions the same positions, give it the same deviation. -/
theorem deviation_congr_ends {c : Constraint Nat α}
    (h : c.bond.isFixed = false → ∀ i ∈ c.bond.ends,
      if c.bond.isDirectional then (L.body s i).direction = (L.body s' i).direction
      else (L.pose s i).position = (L.pose s' i).position) :
    L.deviation s c = L.deviation s' c := by
  obtain ⟨id, bond, tolerance, weight⟩ := c
  refine congrArg (weight * ·) ?_
  cases bond with
  | fixed a => rfl
  | pair relation a b =>
    have ha := h rfl a List.mem_cons_self
    have hb := h rfl b (List.mem_cons_of_mem _ List.mem_cons_self)
    cases hdirectional : relation.isDirectional with
    | true =>
      simp only [Bond.isDirectional, hdirectional, if_true] at ha hb
      exact Relation.deviation_of_directions hdirectional ha hb
    | false =>
      simp only [Bond.isDirectional, hdirectional, Bool.false_eq_true, if_false] at ha hb
      exact Relation.deviation_of_positions hdirectional ha hb rfl rfl

/-- States that agree on what a constraint reads give it the same deviation. -/
theorem deviation_congr {c : Constraint Nat α}
    (h : ∀ j, c.bond.Reads L.layout j → s.getD j 0 = s'.getD j 0) :
    L.deviation s c = L.deviation s' c := by
  refine deviation_congr_ends fun hfixed i hi => ?_
  have hreads : ∀ j, (if c.bond.isDirectional then L.layout.Turns i j else L.layout.Places i j) →
      s.getD j 0 = s'.getD j 0 := fun j hj => h j (Bond.reads_iff.2 ⟨hfixed, i, hi, hj⟩)
  split at hreads
  case isTrue hd =>
    rw [if_pos hd]
    exact congrArg EulerAngles.direction (orientation_congr hreads)
  case isFalse hd =>
    rw [if_neg hd]
    exact position_congr hreads

theorem getD_setIfInBounds_of_ne {j j' : Nat} (h : j ≠ j') (x : α) :
    (s.setIfInBounds j x).getD j' 0 = s.getD j' 0 := by
  rw [Array.getD_eq_getD_getElem?, Array.getD_eq_getD_getElem?, Array.getElem?_setIfInBounds_ne h]

/-- Whether a variable does nothing to a constraint: moving it leaves the deviation in every
state, and it is no coordinate of the ends of a constraint between positions. -/
structure Ignores (L : Linkage α) (c : Constraint Nat α) (j : Nat) : Prop where
  deviation_eq : ∀ (s : Array α) (x : α), L.deviation (s.setIfInBounds j x) c = L.deviation s c
  not_places : c.bond.isFixed = false → c.bond.isDirectional = false →
    ∀ i ∈ c.bond.ends, ¬L.layout.Places i j

/-- A constraint ignores what it does not read. -/
theorem Ignores.of_not_reads {c : Constraint Nat α} {j : Nat} (h : ¬c.bond.Reads L.layout j) :
    L.Ignores c j where
  deviation_eq s x := by
    refine deviation_congr fun j' hj' => getD_setIfInBounds_of_ne ?_ x
    rintro rfl
    exact h hj'
  not_places hfixed hd i hi hplaces := by
    refine h (Bond.reads_iff.2 ⟨hfixed, i, hi, ?_⟩)
    rwa [if_neg (ne_true_of_eq_false hd)]

/-! ## Slopes -/

/-- A row of slopes has an entry for every variable. -/
@[simp]
theorem size_slopeRow (L : Linkage α) (s : Array α) (step : α) (c : Constraint Nat α) :
    (L.slopeRow s step c).size = L.size := by
  have hseparation : ∀ a b apart, (L.separationRow s c.weight a b apart).size = L.size := by
    intro a b apart
    unfold separationRow
    split <;> simp
  unfold slopeRow
  split <;> first | exact hseparation _ _ _ | simp [measuredRow]

theorem row_slopes (L : Linkage α) (s : Array α) (step : α) {i : Nat}
    (hi : i < L.constraints.length) :
    (L.slopes s step).row i = L.slopeRow s step L.constraints[i] := by
  have hrow : (L.constraints.map (L.slopeRow s step)).toArray.getD i #[] =
      L.slopeRow s step L.constraints[i] := by
    simp [Array.getD, hi]
  rw [slopes, Dense.Matrix.ofRows, Dense.Matrix.row_ofFn _ (by simpa using hi), hrow]
  exact Dense.ofFn_getD (by simp)

theorem entry_slopes (L : Linkage α) (s : Array α) (step : α) {i j : Nat} {c : Constraint Nat α}
    (hc : L.constraints[i]? = some c) (hj : j < L.size) :
    (L.slopes s step).entry i j = (L.slopeRow s step c).getD j 0 := by
  obtain ⟨hi, rfl⟩ := List.getElem?_eq_some_iff.1 hc
  rw [← Dense.Matrix.getD_row _ (by simpa using hi) hj, row_slopes L s step hi]

variable [LawfulArithmetic α]

theorem measuredSlope_blank {c : Constraint Nat α} {j : Nat} (h : L.Ignores c j) (step : α) :
    Blank (L.measuredSlope s step c j) := by
  unfold measuredSlope
  dsimp only
  -- both states to the side give the same deviation, so it is taken from itself
  rw [h.deviation_eq, h.deviation_eq]
  exact LawfulArithmetic.blank_div (LawfulArithmetic.blank_sub_self _)

theorem getD_ofFn {n j : Nat} {f : Fin n → α} (hf : ∀ i : Fin n, i.val = j → Blank (f i)) :
    Blank ((Array.ofFn f).getD j 0) := by
  rw [Array.getD_eq_getD_getElem?, Array.getElem?_ofFn]
  split
  · exact hf _ rfl
  · exact blank_zero

theorem measuredRow_blank {c : Constraint Nat α} {j : Nat} (h : L.Ignores c j) (step : α) :
    Blank ((L.measuredRow s step c).getD j 0) := by
  refine getD_ofFn ?_
  rintro i rfl
  split
  · exact measuredSlope_blank h step
  · exact blank_zero

theorem separationRow_blank {a b j : Nat} (ha : ¬L.layout.Places a j) (hb : ¬L.layout.Places b j)
    (weight : α) (apart : Bool) : Blank ((L.separationRow s weight a b apart).getD j 0) := by
  unfold separationRow
  split
  · rw [Array.getD_eq_getD_getElem?, Array.getElem?_replicate]
    split <;> exact blank_zero
  · refine getD_ofFn ?_
    rintro i rfl
    unfold along
    rw [Layout.coordinate?_of_not_places ha, Layout.coordinate?_of_not_places hb]
    exact LawfulArithmetic.blank_add blank_zero blank_zero

/-- The slope of a constraint with a variable that it ignores is blank. -/
theorem slopeRow_blank {c : Constraint Nat α} {j : Nat} (h : L.Ignores c j) (step : α) :
    Blank ((L.slopeRow s step c).getD j 0) := by
  -- three relations have their slopes in closed form, the others have them measured
  have hmeasured := measuredRow_blank (s := s) h step
  obtain ⟨id, bond, tolerance, weight⟩ := c
  cases bond with
  | fixed a => exact hmeasured
  | pair relation a b =>
    have hplaces : relation.isDirectional = false →
        ¬L.layout.Places a j ∧ ¬L.layout.Places b j := by
      intro hd
      have hends := h.not_places rfl hd
      exact ⟨hends a List.mem_cons_self, hends b (List.mem_cons_of_mem _ List.mem_cons_self)⟩
    cases relation with
    | coincident => exact separationRow_blank (hplaces rfl).1 (hplaces rfl).2 weight false
    | distance => exact separationRow_blank (hplaces rfl).1 (hplaces rfl).2 weight true
    | tangent => exact separationRow_blank (hplaces rfl).1 (hplaces rfl).2 weight true
    | parallel => exact hmeasured
    | perpendicular => exact hmeasured
    | angle => exact hmeasured
    | symmetric => exact hmeasured

/-- The column of a variable that every constraint ignores is blank. -/
theorem slopes_blank {j : Nat} (hj : j < L.size) (h : ∀ c ∈ L.constraints, L.Ignores c j)
    (step : α) :
    (L.slopes s step).BlankColumn j := by
  intro i hi
  have hi' : i < L.constraints.length := by simpa using hi
  rw [entry_slopes L s step (List.getElem?_eq_getElem hi') hj]
  exact slopeRow_blank (h _ (List.getElem_mem hi')) step

end Linkage

end Joinery
