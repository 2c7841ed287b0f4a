import Joinery.Dense.Bounded
import Joinery.Linkage.Slope
import Joinery.Proofs.Guarded.Dense
import Joinery.Proofs.Linkage.Poses
import Joinery.Proofs.Linkage.Reads
/-!
# Linkages with every index checked

A linkage hands out places twice: constraints get the places of their ends among
the members, and members get stretches of the state. Everything that is read or
written afterwards goes by these places. `Sound` says that they are there, and
every linkage of a well-formed assembly is sound. The forms here check each place
where it is used, and are the forms of the same names in `Linkage`.
-/

namespace Joinery.Guarded

open Joinery.Dense Linkage

/-! ## Layouts -/

section Layouts

/-- Gives stretches to what is not pinned, and says where the last one ends. -/
def assign? (stride : Nat) : Nat → List Bool → Except Breach (List (Option Nat) × Nat)
  | start, [] => .ok ([], start)
  | start, true :: rest => do
    let (offsets, size) ← assign? stride start rest
    return (none :: offsets, size)
  | start, false :: rest => do
    let next ← Bounded.below? Bounded.wordLimit (start + stride) (.ok (start + stride))
    let (offsets, size) ← assign? stride next rest
    return (some start :: offsets, size)

def ofPinned? (turning : Bool) (pinned : Array Bool) : Except Breach Layout := do
  let (offsets, size) ← assign? (freedomOfPart turning) 0 pinned.toList
  return ⟨turning, offsets.toArray, size⟩

theorem assign?_eq {stride start : Nat} {pinned : List Bool}
    (h : start + stride * pinned.count false < Bounded.wordLimit) :
    assign? stride start pinned =
      .ok (Layout.assign stride start pinned, start + stride * pinned.count false) := by
  induction pinned generalizing start with
  | nil => rfl
  | cons p rest ih =>
    cases p with
    | true =>
      rw [List.count_cons_of_ne (by decide)] at h ⊢
      rw [assign?, ih h]
      rfl
    | false =>
      rw [List.count_cons_self, Nat.mul_succ, Nat.add_comm _ stride, ← Nat.add_assoc] at h ⊢
      rw [assign?, Bounded.below?_of_lt (by omega), ok_bind, ih h]
      rfl

/-- Everything that is not pinned takes at most six numbers of the state. -/
theorem ofPinned?_eq {turning : Bool} {pinned : List Bool}
    (h : 6 * pinned.length < Bounded.wordLimit) :
    ofPinned? turning pinned.toArray = .ok (.ofPinned turning pinned) := by
  have hstride : freedomOfPart turning ≤ 6 := by cases turning <;> decide
  have hsize : freedomOfPart turning * pinned.count false ≤ 6 * pinned.length :=
    Nat.mul_le_mul hstride List.count_le_length
  have hassign : assign? (freedomOfPart turning) 0 pinned =
      .ok (Layout.assign (freedomOfPart turning) 0 pinned,
        0 + freedomOfPart turning * pinned.count false) := assign?_eq (by omega)
  rw [ofPinned?, hassign, Nat.zero_add]
  rfl

end Layouts

/-! ## Linking -/

section Linking

variable {α : Type}

/-- Which members the constraints fix. -/
def pinned? (n : Nat) (constraints : List (Constraint Nat α)) : Except Breach (Array Bool) :=
  fill? (Array.replicate n false)
    ((constraints.filter (·.bond.isFixed)).map (·.bond.first)) fun _ => return true

theorem pinned?_eq {n : Nat} {constraints : List (Constraint Nat α)}
    (h : ∀ c ∈ constraints, c.bond.first < n) :
    pinned? n constraints = .ok ((List.range n).map (isFixedBy constraints)).toArray := by
  refine (fill?_replicate (g := fun _ => true) (fun i hi => ⟨?_, rfl⟩) false).trans
    (congrArg Except.ok (Array.ext (by simp) fun i _ _ => ?_))
  · obtain ⟨c, hc, rfl⟩ := List.mem_map.1 hi
    exact h c ((List.mem_filter.1 hc).1)
  · rw [Bool.eq_iff_iff]
    simp [isFixedBy, and_assoc]

variable [Scalar α]

/-- The linkage of an assembly. The first problem stands for all. -/
def link? (a : Assembly α) (initial : PositionMap α) (turning : Bool) :
    Except (Failure α) (Linkage α) :=
  match a.problems with
  | error :: _ => .error (.rejected error)
  | [] => do
    let members ← a.components.mapM (Component.member? initial)
    let constraints ← a.constraints.mapM (Constraint.link? (a.components.map (·.id)))
    let pinned ← Failure.ofBreach (pinned? members.length constraints)
    let layout ← Failure.ofBreach (ofPinned? turning pinned)
    return ⟨members.toArray, constraints, layout⟩

theorem link?_eq {a : Assembly α} (h : 6 * a.components.length < Bounded.wordLimit)
    (initial : PositionMap α) (turning : Bool) :
    link? a initial turning = a.link? initial turning := by
  unfold link? Assembly.link?
  cases hproblems : a.problems with
  | cons error rest => rfl
  | nil =>
    have hwell := Assembly.problems_eq_nil_iff.1 hproblems
    have hends := Assembly.ends_lt_linked hwell
    dsimp only
    rw [mapM_eq_find? fun c hc => Component.member?_eq (hwell.radius_ok c hc),
      mapM_eq_ok fun con hcon => Constraint.link?_eq_ok (hwell.ends_known con hcon)]
    cases a.components.find? fun c => !c.startIsFinite initial with
    | some c => rfl
    | none =>
      dsimp only
      rw [ok_bind, ok_bind, ok_bind, ok_bind, List.length_map,
        pinned?_eq fun c hc => hends c hc _ c.bond.first_mem_ends, Failure.ofBreach_ok, ok_bind,
        ofPinned?_eq (by simpa using h)]
      rfl

end Linking

/-! ## States -/

section States

variable {α : Type} {L : Linkage α} {s : Array α} {i k : Nat}

/-- Writes numbers from place `k` on. -/
def write? (s : Array α) (k : Nat) (xs : List α) : Except Breach (Array α) :=
  (xs.zipIdx k).foldlM (fun s x => put? s x.2 x.1) s

theorem write?_eq {before after xs : List α} (h : xs.length ≤ after.length) :
    write? (before ++ after).toArray before.length xs =
      .ok (before ++ xs ++ after.drop xs.length).toArray := by
  unfold write?
  induction xs generalizing before after with
  | nil => simp
  | cons x rest ih =>
    cases after with
    | nil => simp at h
    | cons y after =>
      have hplace : before.length < (before ++ y :: after).toArray.size := by simp
      have hput : ((before ++ y :: after).toArray.setIfInBounds before.length x) =
          (before ++ [x] ++ after).toArray := by simp
      rw [List.zipIdx_cons, List.foldlM_cons, put?_eq hplace, ok_bind, hput,
        ← List.length_singleton (a := x), ← List.length_append, ih (by simpa using h)]
      simp

theorem at?_offsets (h : Sound L) (hi : i < L.members.size) :
    at? L.layout.offsets i = .ok (L.layout.offset? i) :=
  at?_eq (by rw [h.regular.size_offsets]; exact hi) none

variable [Scalar α]

/-- Writes what member `i` starts from into its stretch. -/
def place? (L : Linkage α) (s : Array α) (i : Nat) : Except Breach (Array α) := do
  match ← at? L.layout.offsets i with
  | none => return s
  | some k => write? s k (coordinates L.layout.turning (← at? L.members i).start)

/-- The state in which every member has the pose it starts from. -/
def initialState? (L : Linkage α) : Except Breach (Array α) :=
  (List.range L.members.size).foldlM (place? L) (Array.replicate L.size 0)

/-- The state once the first `n` members are written: their stretches, and zeros
up to the length of a state. -/
def writtenState (L : Linkage α) (n : Nat) : Array α :=
  (L.stretches L.startPose n ++
    List.replicate (L.size - (L.stretches L.startPose n).length) 0).toArray

/-- The stretch of a member starts where those before it end. -/
theorem place?_writtenState (h : Sound L) {n : Nat} (hn : n < L.members.size) :
    place? L (writtenState L n) n = .ok (writtenState L (n + 1)) := by
  rw [place?, at?_offsets h hn, ok_bind, writtenState, writtenState, stretches_succ,
    Layout.isPinned]
  cases hk : L.layout.offset? n with
  | none => simp
  | some k =>
    have hlength := length_coordinates L.layout.turning L.members[n].start
    have hfits := h.regular.offset_add_le hk
    have hstart : k = (L.stretches L.startPose n).length := by
      rw [h.regular.length_stretches L.startPose (Nat.le_of_lt hn)]
      exact (h.regular.of_offset? hk).2.2
    subst hstart
    rw [at?_getElem hn, startPose_eq hn]
    dsimp only [ok_bind]
    rw [write?_eq (by rw [hlength, List.length_replicate]; exact Nat.le_sub_of_add_le' hfits),
      List.drop_replicate, Nat.sub_sub, ← List.length_append]
    rfl

/-- Once every member is written no zeros are left. -/
theorem writtenState_size (h : Sound L) : writtenState L L.members.size = L.initialState := by
  rw [writtenState, h.regular.length_stretches L.startPose (Nat.le_refl _), ← h.regular.size_eq,
    Nat.sub_self, List.replicate_zero, List.append_nil]
  rfl

theorem initialState?_eq (h : Sound L) : initialState? L = .ok L.initialState := by
  have hfold : ∀ n ≤ L.members.size,
      (List.range n).foldlM (place? L) (Array.replicate L.size 0) = .ok (writtenState L n) := by
    intro n hn
    induction n with
    | zero => simp [writtenState, stretches]
    | succ n ih =>
      rw [List.range_succ, List.foldlM_append, ih (by omega), ok_bind, List.foldlM_cons,
        place?_writtenState h hn]
      rfl
  rw [initialState?, hfold _ (Nat.le_refl _), writtenState_size h]

/-- The pose of member `i`. -/
def pose? (L : Linkage α) (s : Array α) (i : Nat) : Except Breach (Pose α) := do
  let m ← at? L.members i
  match ← at? L.layout.offsets i with
  | none => return m.start
  | some k =>
    let position := ⟨← at? s k, ← at? s (k + 1), ← at? s (k + 2)⟩
    if L.layout.turning then
      return ⟨position, ⟨← at? s (k + 3), ← at? s (k + 4), ← at? s (k + 5)⟩⟩
    else return ⟨position, m.start.orientation⟩

theorem pose?_eq (h : Sound L) (hs : L.size ≤ s.size) (hi : i < L.members.size) :
    pose? L s i = .ok (L.pose s i) := by
  rw [pose?, at?_getElem hi, ok_bind, at?_offsets h hi, ok_bind, pose]
  cases hk : L.layout.offset? i with
  | none => rw [startPose_eq hi]; rfl
  | some k =>
    have hfits := h.regular.offset_add_le hk
    have hthree := L.layout.three_le_stride
    have hat : ∀ t < L.layout.stride, at? s (k + t) = .ok (s.getD (k + t) 0) :=
      fun t ht => at?_eq (by omega) 0
    dsimp only
    rw [show at? s k = .ok (s.getD k 0) from hat 0 (by omega), hat 1 (by omega), hat 2 (by omega)]
    simp only [ok_bind]
    split
    case isTrue hturning =>
      have hsix : L.layout.stride = 6 := Layout.stride_of_turning hturning
      rw [hat 3 (by omega), hat 4 (by omega), hat 5 (by omega)]
      rfl
    case isFalse => rw [startPose_eq hi]; rfl

def body? (L : Linkage α) (s : Array α) (i : Nat) : Except Breach (Body α) := do
  return ⟨← pose? L s i, (← at? L.members i).radius⟩

theorem body?_eq (h : Sound L) (hs : L.size ≤ s.size) (hi : i < L.members.size) :
    body? L s i = .ok (L.body s i) := by
  rw [body?, pose?_eq h hs hi, at?_getElem hi, body, Array.getElem?_eq_getElem hi]
  rfl

/-- The weighted deviation of a constraint. -/
def deviation? (L : Linkage α) (s : Array α) (c : Constraint Nat α) : Except Breach α := do
  return c.weight * (← c.bond.traverse (body? L s)).deviation

theorem deviation?_eq (h : Sound L) (hs : L.size ≤ s.size) {c : Constraint Nat α}
    (hc : c ∈ L.constraints) : deviation? L s c = .ok (L.deviation s c) := by
  rw [deviation?, Bond.traverse_eq_ok fun i hi => body?_eq h hs (h.ends_lt c hc i hi)]
  rfl

/-- The weighted deviations of all constraints. -/
def deviations? (L : Linkage α) (s : Array α) : Except Breach (Array α) := do
  return (← L.constraints.mapM (deviation? L s)).toArray

theorem deviations?_eq (h : Sound L) (hs : L.size ≤ s.size) :
    deviations? L s = .ok (L.deviations s) := by
  rw [deviations?, mapM_eq_ok fun c hc => deviation?_eq h hs hc]
  rfl

/-- The poses of all members with their identifiers. -/
def poses? (L : Linkage α) (s : Array α) : Except Breach (List (String × Pose α)) :=
  L.members.toList.zipIdx.mapM fun m => do return (m.1.id, ← pose? L s m.2)

theorem poses?_eq (h : Sound L) (hs : L.size ≤ s.size) : poses? L s = .ok (L.poses s) := by
  refine mapM_eq_ok fun m hm => ?_
  have hlt : m.2 < L.members.size := by simpa using List.snd_lt_of_mem_zipIdx hm
  rw [pose?_eq h hs hlt]
  rfl

end States

/-! ## Slopes -/

section Slopes

variable {α : Type} {L : Linkage α} {s : Array α} {i : Nat}

/-- The variables of member `i`. -/
def stretch? (L : Linkage α) (i : Nat) : Except Breach (List Nat) := do
  match ← at? L.layout.offsets i with
  | none => return []
  | some k => return List.range' k L.layout.stride

def stretch (L : Linkage α) (i : Nat) : List Nat :=
  ((L.layout.offset? i).map fun k => List.range' k L.layout.stride).getD []

theorem stretch?_eq (h : Sound L) (hi : i < L.members.size) :
    stretch? L i = .ok (stretch L i) := by
  rw [stretch?, at?_offsets h hi, ok_bind, stretch]
  cases L.layout.offset? i <;> rfl

theorem mem_stretch {j : Nat} : j ∈ stretch L i ↔ L.layout.owns i j = true := by
  rw [stretch, Layout.owns]
  cases L.layout.offset? i <;> simp

theorem lt_of_mem_stretch (h : Sound L) {j : Nat} (hj : j ∈ stretch L i) : j < L.size := by
  obtain ⟨k, hk, -, hlt⟩ := Layout.owns_iff.1 (mem_stretch.1 hj)
  have hfits := h.regular.offset_add_le hk
  omega

/-- Whether a row has room for the first `n` numbers of member `i`. -/
def fits? (L : Linkage α) (i n : Nat) : Except Breach Unit := do
  match ← at? L.layout.offsets i with
  | none => return ()
  | some k => Breach.unless (k + n ≤ L.size) .outOfRange ()

theorem fits?_eq (h : Sound L) (hi : i < L.members.size) : fits? L i 3 = .ok () := by
  rw [fits?, at?_offsets h hi, ok_bind]
  cases hk : L.layout.offset? i with
  | none => rfl
  | some k =>
    have hfits := h.regular.offset_add_le hk
    have hthree := L.layout.three_le_stride
    exact if_pos (by omega)

variable [Scalar α]

/-- The component of a displacement along variable `j`, for the position of
member `i`. -/
def along? (L : Linkage α) (i : Nat) (d : Displacement α) (j : Nat) : Except Breach α := do
  match ← at? L.layout.offsets i with
  | none => return 0
  | some k => if k ≤ j ∧ j < k + 3 then at? d.toList.toArray (j - k) else return 0

theorem along?_eq (h : Sound L) (hi : i < L.members.size) (d : Displacement α) (j : Nat) :
    along? L i d j = .ok (L.along i d j) := by
  rw [along?, at?_offsets h hi, ok_bind, along, Layout.coordinate?]
  cases L.layout.offset? i with
  | none => rfl
  | some k =>
    dsimp only
    split
    case isTrue hrange =>
      have hlt : j - k < d.toList.toArray.size := by
        show j - k < 3
        omega
      rw [at?_eq hlt 0, Array.getD_eq_getD_getElem?, List.getElem?_toArray,
        ← List.getD_eq_getElem?_getD]
    case isFalse => rfl

/-- The slopes of the distance between two members, times a weight. -/
def separationRow? (L : Linkage α) (s : Array α) (weight : α) (a b : Nat) (apart : Bool) :
    Except Breach (Array α) := do
  let first ← pose? L s a
  let second ← pose? L s b
  let d := second.position - first.position
  let heading? :=
    if 1e-12 < d.length then some (d / d.length) else if apart then some .xUnit else none
  fits? L a 3
  fits? L b 3
  match heading? with
  | none => return Array.replicate L.size 0
  | some unit =>
    let pull := unit * weight
    let row ← (List.range L.size).mapM fun j => do
      return (← along? L a (-pull) j) + (← along? L b pull j)
    return row.toArray

theorem separationRow?_eq (h : Sound L) (hs : L.size ≤ s.size) {a b : Nat}
    (ha : a < L.members.size) (hb : b < L.members.size) (weight : α) (apart : Bool) :
    separationRow? L s weight a b apart = .ok (L.separationRow s weight a b apart) := by
  have hrow : ∀ unit : Displacement α, (List.range L.size).mapM (fun j => do
      return (← along? L a (-(unit * weight)) j) + (← along? L b (unit * weight) j)) =
      .ok ((List.range L.size).map fun j =>
        L.along a (-(unit * weight)) j + L.along b (unit * weight) j) := by
    refine fun unit => mapM_eq_ok fun j _ => ?_
    rw [along?_eq h ha, along?_eq h hb]
    rfl
  rw [separationRow?, pose?_eq h hs ha, ok_bind, pose?_eq h hs hb, ok_bind, fits?_eq h ha,
    ok_bind, fits?_eq h hb, ok_bind, separationRow]
  -- the heading is the same, so it is enough to look at the two kinds of it
  show (match L.heading? s a b apart with | none => _ | some unit => _) = _
  cases L.heading? s a b apart with
  | none => rfl
  | some unit =>
    dsimp only
    rw [hrow]
    exact congrArg Except.ok (Array.ext (by simp) fun j _ _ => by simp)

/-- The slope of a constraint with variable `j`, between the states a step to
either side. -/
def measuredSlope? (L : Linkage α) (s : Array α) (step : α) (c : Constraint Nat α) (j : Nat) :
    Except Breach α := do
  let x ← at? s j
  let h := step * Arithmetic.max (Arithmetic.abs x) 1
  let above ← deviation? L (← put? s j (x + h)) c
  let below ← deviation? L (← put? s j (x - h)) c
  return (above - below) / Arithmetic.twice h

theorem measuredSlope?_eq (h : Sound L) (hs : L.size ≤ s.size) {c : Constraint Nat α}
    (hc : c ∈ L.constraints) {j : Nat} (hj : j < s.size) (step : α) :
    measuredSlope? L s step c j = .ok (L.measuredSlope s step c j) := by
  have hdeviation : ∀ x : α, deviation? L (s.setIfInBounds j x) c =
      .ok (L.deviation (s.setIfInBounds j x) c) :=
    fun x => deviation?_eq h (by rwa [Array.size_setIfInBounds]) hc
  rw [measuredSlope?, at?_eq hj 0, ok_bind]
  dsimp only
  rw [put?_eq hj, ok_bind, hdeviation, ok_bind, put?_eq hj, ok_bind, hdeviation]
  rfl

def measuredRow? (L : Linkage α) (s : Array α) (step : α) (c : Constraint Nat α) :
    Except Breach (Array α) := do
  let places ← c.bond.ends.mapM (stretch? L)
  fill? (Array.replicate L.size 0) places.flatten (measuredSlope? L s step c)

theorem measuredRow?_eq (h : Sound L) (hs : L.size ≤ s.size) {c : Constraint Nat α}
    (hc : c ∈ L.constraints) (step : α) :
    measuredRow? L s step c = .ok (L.measuredRow s step c) := by
  rw [measuredRow?, mapM_eq_ok fun i hi => stretch?_eq h (h.ends_lt c hc i hi), ok_bind]
  refine (fill?_replicate (g := L.measuredSlope s step c) (fun j hj => ?_) 0).trans
    (congrArg Except.ok (Array.ext (by simp [measuredRow]) fun j _ _ => ?_))
  · rw [← List.flatMap_def, List.mem_flatMap] at hj
    obtain ⟨i, -, hj⟩ := hj
    have hlt := lt_of_mem_stretch h hj
    exact ⟨hlt, measuredSlope?_eq h hs hc (Nat.lt_of_lt_of_le hlt hs) step⟩
  · simp [measuredRow, ← List.flatMap_def, List.mem_flatMap, mem_stretch]

/-- The slopes of one constraint. -/
def slopeRow? (L : Linkage α) (s : Array α) (step : α) (c : Constraint Nat α) :
    Except Breach (Array α) :=
  match c.bond with
  | .pair .coincident a b => separationRow? L s c.weight a b false
  | .pair (.distance _) a b => separationRow? L s c.weight a b true
  | .pair .tangent a b => separationRow? L s c.weight a b true
  | _ => measuredRow? L s step c

theorem slopeRow?_eq (h : Sound L) (hs : L.size ≤ s.size) {c : Constraint Nat α}
    (hc : c ∈ L.constraints) (step : α) :
    slopeRow? L s step c = .ok (L.slopeRow s step c) := by
  have hends := h.ends_lt c hc
  have hmeasured := measuredRow?_eq h hs hc step
  unfold slopeRow? slopeRow
  rcases hbond : c.bond with a | ⟨relation, a, b⟩
  · exact hmeasured
  · rw [hbond] at hends
    have hapart := separationRow?_eq h hs (hends a (by simp [Bond.ends]))
      (hends b (by simp [Bond.ends])) c.weight
    cases relation <;> first | exact hmeasured | exact hapart _

/-- The slopes of all constraints. -/
def slopes? (L : Linkage α) (s : Array α) (step : α) : Except Breach (Matrix α) := do
  let rows ← L.constraints.mapM (slopeRow? L s step)
  build? rows.length L.size fun i j => do at? (← at? rows.toArray i) j

theorem slopes?_eq (h : Sound L) (hs : L.size ≤ s.size) (step : α) :
    slopes? L s step = .ok (L.slopes s step) := by
  rw [slopes?, mapM_eq_ok fun c hc => slopeRow?_eq h hs hc step, ok_bind, slopes, Matrix.ofRows]
  refine build?_eq fun i hi j hj => ?_
  have hrow : i < (L.constraints.map (L.slopeRow s step)).toArray.size := by simpa using hi
  rw [at?_eq hrow #[], ok_bind]
  refine at?_eq ?_ 0
  rw [Array.getD, dif_pos hrow]
  simpa [size_slopeRow] using hj

end Slopes

end Joinery.Guarded
