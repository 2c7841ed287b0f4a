import Mathlib
import Joinery.Proofs.Review.Inert
/-!
# Two numbers for the same thing

A distance or an angle that is asked of the same two components twice, with targets that
differ, is reported. A review compares every target with the first one for its subject
only. That is enough: of two targets that are far apart, one is not near the first. And
nothing depends on how the ends of a constraint are written or on what stands between
the two constraints.
-/

namespace Joinery

/-- What can be asked of two components as a number. -/
inductive Quantity
  | distance
  | angle
deriving Repr, DecidableEq

namespace Quantity

/-- The relation that holds the quantity to a number. -/
def relation {α : Type} (quantity : Quantity) (target : α) : Relation α :=
  match quantity with
  | distance => .distance target
  | angle => .angle target

def name : Quantity → String
  | distance => "distance"
  | angle => "angle"

/-- What the constraints on a quantity between two components share. -/
def subject (quantity : Quantity) (x y : String) : Review.Subject :=
  if y < x then ⟨quantity.name, y, x⟩ else ⟨quantity.name, x, y⟩

theorem name_injective : Function.Injective name := by
  intro q q' h
  cases q <;> cases q' <;> first | rfl | exact absurd h (by decide)

theorem subject_comm (quantity : Quantity) (x y : String) :
    quantity.subject x y = quantity.subject y x := by
  unfold subject
  rcases lt_trichotomy x y with h | rfl | h
  · rw [if_neg (lt_asymm h), if_pos h]
  · rfl
  · rw [if_pos h, if_neg (lt_asymm h)]

/-- A subject is a quantity and two components, in no order. -/
theorem subject_eq_iff {q q' : Quantity} {x y x' y' : String} :
    q.subject x y = q'.subject x' y' ↔ q = q' ∧ (x = x' ∧ y = y' ∨ x = y' ∧ y = x') := by
  constructor
  · intro h
    unfold subject at h
    split at h <;> split at h <;> rw [Review.Subject.mk.injEq] at h <;>
      obtain ⟨hname, rfl, rfl⟩ := h <;> refine ⟨name_injective hname, ?_⟩ <;> simp
  · rintro ⟨rfl, ⟨rfl, rfl⟩ | ⟨rfl, rfl⟩⟩
    · rfl
    · exact subject_comm q x y

end Quantity

/-- Whether a constraint holds a quantity between two components, in either order, to a
number. -/
def Constraint.Asks {α : Type} (con : Constraint String α) (quantity : Quantity) (x y : String)
    (target : α) : Prop :=
  con.bond = .pair (quantity.relation target) x y ∨ con.bond = .pair (quantity.relation target) y x

namespace Review

open Joinery.Dense Joinery.Newton

variable {α : Type}

/-! ## Subjects -/

section Subjects

variable {con : Constraint String α} {s : Subject} {quantity : Quantity} {x y : String} {t : α}

theorem subject?_of_asks (h : con.Asks quantity x y t) :
    subject? con = some (quantity.subject x y, t) := by
  have hpair : ∀ x y : String, con.bond = .pair (quantity.relation t) x y →
      subject? con = some (quantity.subject x y, t) := by
    intro x y hbond
    unfold subject? Quantity.subject
    rw [hbond]
    cases quantity <;> dsimp only [Quantity.relation, Relation.target?, Relation.name,
      Quantity.name, Option.map_some] <;> split <;> rfl
  rcases h with h | h
  · exact hpair x y h
  · rw [Quantity.subject_comm]
    exact hpair y x h

theorem exists_asks_of_subject? (h : subject? con = some (s, t)) :
    ∃ quantity x y, con.bond = .pair (Quantity.relation quantity t) x y ∧
      s = quantity.subject x y := by
  cases hbond : con.bond with
  | fixed a =>
    unfold subject? at h
    rw [hbond] at h
    cases h
  | pair relation x y =>
    have hasks : ∀ (quantity : Quantity) (target : α), relation = quantity.relation target →
        ∃ quantity x' y', Bond.pair relation x y = .pair (Quantity.relation quantity t) x' y' ∧
          s = quantity.subject x' y' := by
      rintro quantity target rfl
      have h' := subject?_of_asks (.inl hbond)
      rw [h] at h'
      cases h'
      exact ⟨quantity, x, y, rfl, rfl⟩
    cases relation with
    | distance target => exact hasks .distance target rfl
    | angle target => exact hasks .angle target rfl
    | _ =>
      unfold subject? at h
      rw [hbond] at h
      cases h

/-- A constraint asks for a quantity between two components just when it is on that
subject. -/
theorem asks_iff : con.Asks quantity x y t ↔ subject? con = some (quantity.subject x y, t) := by
  refine ⟨subject?_of_asks, fun h => ?_⟩
  obtain ⟨q', x', y', hbond, hs⟩ := exists_asks_of_subject? h
  obtain ⟨rfl, ⟨rfl, rfl⟩ | ⟨rfl, rfl⟩⟩ := Quantity.subject_eq_iff.1 hs
  · exact .inl hbond
  · exact .inr hbond

end Subjects

/-! ## The first target for a subject -/

/-- The first of some constraints on a subject: its identifier and its target. -/
def firstOn? (l : List (Constraint String α)) (s : Subject) : Option (String × α) :=
  l.findSome? fun con => (subject? con).bind fun asked =>
    if asked.1 = s then some (con.id, asked.2) else none

section First

variable {l : List (Constraint String α)} {con : Constraint String α} {s s' : Subject} {t : α}

theorem firstOn?_append_of_none (h : subject? con = none) :
    firstOn? (l ++ [con]) s = firstOn? l s := by
  simp [firstOn?, List.findSome?_append, h]

theorem firstOn?_append_of_some (h : subject? con = some (s', t)) :
    firstOn? (l ++ [con]) s =
      (firstOn? l s).or (if s' = s then some (con.id, t) else none) := by
  simp [firstOn?, List.findSome?_append, h]

/-- The first constraint on a subject is one of them. -/
theorem exists_of_firstOn? {id : String} (h : firstOn? l s = some (id, t)) :
    ∃ (i : Nat) (con : Constraint String α), l[i]? = some con ∧ subject? con = some (s, t) ∧
      con.id = id := by
  obtain ⟨con, hmem, hcon⟩ := List.exists_of_findSome?_eq_some h
  obtain ⟨⟨s', t'⟩, hsubject, hif⟩ := Option.bind_eq_some_iff.1 hcon
  obtain ⟨i, hi⟩ := List.getElem?_of_mem hmem
  split at hif
  case isTrue heq =>
    cases hif
    cases heq
    exact ⟨i, con, hi, hsubject, rfl⟩
  case isFalse => cases hif

/-- The first constraint on the subject of another one stands before that one, or it is
that one. -/
theorem firstOn?_eq_or {i : Nat} (hi : l[i]? = some con) (h : subject? con = some (s, t)) :
    firstOn? l s = (firstOn? (l.take i) s).or (some (con.id, t)) := by
  obtain ⟨hlt, rfl⟩ := List.getElem?_eq_some_iff.1 hi
  have hsplit : l = l.take i ++ l[i] :: l.drop (i + 1) := by
    rw [← List.drop_eq_getElem_cons hlt, List.take_append_drop]
  unfold firstOn?
  conv_lhs => rw [hsplit, List.findSome?_append, List.findSome?_cons]
  simp [h]

end First

/-! ## The scan -/

section Scan

variable [Arithmetic α]

/-- What a constraint conflicts with, after those that stand before it. -/
structure Clash (before : List (Constraint String α)) (con : Constraint String α)
    (k : Conflict α) : Prop where
  first : firstOn? before k.subject = some (k.earlier, k.earlierTarget)
  subject : subject? con = some (k.subject, k.laterTarget)
  later : con.id = k.later
  far : differ k.earlierTarget k.laterTarget

/-- The scan finds every constraint whose target differs from the first one for its
subject. -/
theorem mem_conflictsAfter {seen : List (Subject × String × α)} {k : Conflict α}
    {l before : List (Constraint String α)}
    (hseen : ∀ s, seen.lookup s = firstOn? before s) :
    k ∈ conflictsAfter seen l ↔
      ∃ (i : Nat) (con : Constraint String α), l[i]? = some con ∧
        Clash (before ++ l.take i) con k := by
  induction l generalizing seen before with
  | nil => simp [conflictsAfter]
  | cons con rest ih =>
    -- the first constraint, or one after it
    have hsplit : (∃ (i : Nat) (con' : Constraint String α), (con :: rest)[i]? = some con' ∧
          Clash (before ++ (con :: rest).take i) con' k) ↔
        Clash before con k ∨ ∃ (i : Nat) (con' : Constraint String α), rest[i]? = some con' ∧
          Clash (before ++ [con] ++ rest.take i) con' k := by
      rw [← Nat.or_exists_add_one]
      simp
    rw [hsplit]
    unfold conflictsAfter
    cases hsubject : subject? con with
    | none =>
      have hno : ¬ Clash before con k := fun h => by cases hsubject.symm.trans h.subject
      rw [or_iff_right hno]
      exact ih fun s => (hseen s).trans (firstOn?_append_of_none hsubject).symm
    | some asked =>
      obtain ⟨subject, target⟩ := asked
      dsimp only
      cases hlookup : seen.lookup subject with
      | none =>
        have hno : ¬ Clash before con k := by
          intro h
          cases hsubject.symm.trans h.subject
          cases (hseen _).symm.trans hlookup |>.symm.trans h.first
        rw [or_iff_right hno]
        refine ih fun s => ?_
        rw [firstOn?_append_of_some hsubject, ← hseen, List.lookup_cons]
        by_cases hs : subject = s
        · subst hs
          simp [hlookup]
        · rw [beq_false_of_ne (Ne.symm hs)]
          simp [hs]
      | some first =>
        obtain ⟨earlier, earlierTarget⟩ := first
        have hfirst : firstOn? before subject = some (earlier, earlierTarget) :=
          (hseen subject).symm.trans hlookup
        have hseen' : ∀ s, seen.lookup s = firstOn? (before ++ [con]) s := by
          intro s
          rw [firstOn?_append_of_some hsubject, hseen]
          by_cases hs : subject = s
          · subst hs
            simp [hfirst]
          · simp [hs]
        have hclash : Clash before con k ↔ differ earlierTarget target ∧
            k = ⟨subject, earlier, earlierTarget, con.id, target⟩ := by
          constructor
          · intro h
            obtain ⟨s, e, et, l, lt⟩ := k
            obtain ⟨hk, hs, rfl, hfar⟩ := h
            cases hsubject.symm.trans hs
            cases hfirst.symm.trans hk
            exact ⟨hfar, rfl⟩
          · rintro ⟨hfar, rfl⟩
            exact ⟨hfirst, hsubject, rfl, hfar⟩
        dsimp only
        split
        case isTrue hfar =>
          rw [List.mem_cons, hclash, ih hseen']
          simp [hfar]
        case isFalse hnear =>
          rw [hclash, ih hseen']
          simp [hnear]

/-- The conflicts of an assembly are the constraints whose targets differ from the first
ones for their subjects. -/
theorem mem_conflicts {a : Assembly α} {k : Conflict α} :
    k ∈ conflicts a ↔ ∃ (i : Nat) (con : Constraint String α), a.constraints[i]? = some con ∧
      Clash (a.constraints.take i) con k := by
  have hseen : ∀ s, ([] : List (Subject × String × α)).lookup s = firstOn? [] s := fun s => rfl
  exact mem_conflictsAfter hseen

end Scan

/-! ## Findings about conflicts -/

section Findings

variable [Scalar α] [Readout α] {c : Settings α} {a : Assembly α} {late : List Finding}
  {f : Finding}

/-- Of all that a review puts together, only conflicts are about conflicting targets. -/
theorem exists_conflict_of_topic
    (hlate : ∀ f ∈ late, f.topic ≠ .inertConstraint ∧ f.topic ≠ .conflictingConstraints)
    (hf : f ∈ a.problems.map .ofInputError ++ plainFindings c a ++ late)
    (htopic : f.topic = .conflictingConstraints) : ∃ k ∈ conflicts a, k.finding = f := by
  simp only [plainFindings, List.mem_append] at hf
  rcases hf with (hproblem | (((hself | hconflict) | hinert) | hanchor) | hfreedom) | hlast
  · obtain ⟨e, -, rfl⟩ := List.mem_map.1 hproblem
    exact absurd htopic (topic_ofInputError e).2
  · obtain ⟨con, -, hcon⟩ := List.mem_filterMap.1 hself
    cases (topic_selfReference hcon).symm.trans htopic
  · exact List.mem_map.1 hconflict
  · split at hinert
    · cases hinert
    · obtain ⟨con, -, hcon⟩ := List.mem_filterMap.1 hinert
      cases (inert?_eq_some hcon).1.symm.trans htopic
  · cases (topic_anchor hanchor).symm.trans htopic
  · rcases topic_freedom hfreedom with h | h <;> cases h.symm.trans htopic
  · exact absurd htopic (hlate f hlast).2

/-- A review reports the conflicts, as errors, and nothing else as a conflict. -/
theorem conflict_errors {singularValues? : Matrix α → Except Breach (List α)}
    (hvalues : ∀ m, ∃ values, singularValues? m = .ok values) (c : Settings α) (a : Assembly α) :
    ∃ report, reviewBy? singularValues? c a = .ok report ∧
      (∀ f ∈ report.warnings, f.topic ≠ .conflictingConstraints) ∧
      ∀ f, (f ∈ report.errors ∧ f.topic = .conflictingConstraints) ↔
        ∃ k ∈ conflicts a, k.finding = f := by
  obtain ⟨late, rank, hlate, hreport⟩ := reviewBy?_total hvalues c a
  refine ⟨_, hreport, ?_, fun f => ⟨?_, ?_⟩⟩
  · intro f hf htopic
    obtain ⟨hmem, hseverity⟩ := List.mem_filter.1 hf
    obtain ⟨k, -, rfl⟩ := exists_conflict_of_topic hlate hmem htopic
    cases of_decide_eq_true hseverity
  · rintro ⟨hf, htopic⟩
    exact exists_conflict_of_topic hlate (List.mem_filter.1 hf).1 htopic
  · rintro ⟨k, hk, rfl⟩
    refine ⟨List.mem_filter.2 ⟨?_, rfl⟩, rfl⟩
    refine List.mem_append_left _ (List.mem_append_right _ ?_)
    simp only [plainFindings, List.mem_append]
    exact .inl (.inl (.inl (.inr (List.mem_map_of_mem hk))))

end Findings

/-! ## Exact numbers -/

section Exact

variable {a : Assembly ℝ} {quantity : Quantity} {x y : String}

/-- Whether a finding says that two constraints hold a quantity between two components,
in either order, to numbers that differ, and is attached to the later one. -/
def Disagreement [Readout ℝ] (a : Assembly ℝ) (quantity : Quantity) (x y : String)
    (f : Finding) : Prop :=
  ∃ (i j : Nat) (con con' : Constraint String ℝ) (t t' : ℝ), i < j ∧
    a.constraints[i]? = some con ∧ a.constraints[j]? = some con' ∧
    con.Asks quantity x y t ∧ con'.Asks quantity x y t' ∧ 1e-9 < |t - t'| ∧
    f.constraint = some con'.id ∧
    f = Conflict.finding ⟨quantity.subject x y, con.id, t, con'.id, t'⟩

/-- A conflict is between two constraints on its subject with different targets, and the
finding names the later one. -/
theorem disagreement_of_mem [Readout ℝ] {k : Conflict ℝ} (hk : k ∈ conflicts a)
    (hsubject : k.subject = quantity.subject x y) : Disagreement a quantity x y k.finding := by
  obtain ⟨j, con', hj, hclash⟩ := mem_conflicts.1 hk
  obtain ⟨i, con, hi, hcon, hid⟩ := exists_of_firstOn? hclash.first
  obtain ⟨subject, earlier, t, later, t'⟩ := k
  obtain rfl : subject = quantity.subject x y := hsubject
  obtain rfl : con.id = earlier := hid
  obtain rfl : con'.id = later := hclash.later
  rw [List.getElem?_take] at hi
  split at hi
  case isTrue hlt =>
    exact ⟨i, j, con, con', t, t', hlt, hi, hj, asks_iff.2 hcon, asks_iff.2 hclash.subject,
      hclash.far, rfl, rfl⟩
  case isFalse => cases hi

/-- Of two targets that are far apart, one is not near a third number. -/
theorem far_or_far {s t u ε : ℝ} (h : 2 * ε < |s - t|) : ε < |u - s| ∨ ε < |u - t| := by
  by_contra hnot
  rw [not_or, not_lt, not_lt] at hnot
  have := abs_sub_le s u t
  rw [abs_sub_comm s u] at this
  linarith [hnot.1, hnot.2]

/-- A constraint whose target is not near the first one for its subject is in conflict
with that one. -/
theorem exists_conflict_of_far {con : Constraint String ℝ} {id : String} {t u : ℝ} {s : Subject}
    (hmem : con ∈ a.constraints) (hcon : subject? con = some (s, t))
    (hfirst : firstOn? a.constraints s = some (id, u)) (hfar : 1e-9 < |u - t|) :
    ∃ k ∈ conflicts a, k.subject = s := by
  obtain ⟨i, hi⟩ := List.getElem?_of_mem hmem
  have hsplit := firstOn?_eq_or hi hcon
  rw [hfirst] at hsplit
  cases hbefore : firstOn? (a.constraints.take i) s with
  | none =>
    rw [hbefore] at hsplit
    cases hsplit
    norm_num at hfar
  | some first =>
    rw [hbefore] at hsplit
    cases hsplit
    exact ⟨⟨s, id, u, con.id, t⟩, mem_conflicts.2 ⟨i, con, hi, hbefore, hcon, rfl, hfar⟩, rfl⟩

/-- Where two targets for a subject are more than twice as far apart as makes a conflict,
there is a conflict on it. -/
theorem exists_conflict {con con' : Constraint String ℝ} {t t' : ℝ} {s : Subject}
    (hmem : con ∈ a.constraints) (hmem' : con' ∈ a.constraints)
    (hcon : subject? con = some (s, t)) (hcon' : subject? con' = some (s, t'))
    (hfar : 2e-9 < |t - t'|) : ∃ k ∈ conflicts a, k.subject = s := by
  obtain ⟨i, hi⟩ := List.getElem?_of_mem hmem
  obtain ⟨⟨id, u⟩, hfirst⟩ : ∃ first, firstOn? a.constraints s = some first := by
    rw [firstOn?_eq_or hi hcon]
    cases firstOn? (a.constraints.take i) s with
    | none => exact ⟨_, rfl⟩
    | some first => exact ⟨first, rfl⟩
  have htwice : 2 * 1e-9 < |t - t'| := by
    norm_num at hfar ⊢
    exact hfar
  rcases far_or_far htwice with h | h
  · exact exists_conflict_of_far hmem hcon hfirst h
  · exact exists_conflict_of_far hmem' hcon' hfirst h

end Exact

/-- Over exact numbers a review reports, as a conflict, only a distance or angle that an
earlier constraint wants to differ by more than a billionth, and names the later of the
two; and it reports every quantity between two components for which two constraints
want numbers more than two billionths apart, whichever ends they write first and whatever
stands between them. -/
theorem conflicts_reported [Readout ℝ] (singularValues? : Matrix ℝ → Except Breach (List ℝ))
    (hvalues : ∀ m, ∃ values, singularValues? m = .ok values) (c : Settings ℝ) (a : Assembly ℝ) :
    ∃ report, reviewBy? singularValues? c a = .ok report ∧
      (∀ f ∈ report.warnings, f.topic ≠ .conflictingConstraints) ∧
      (∀ f ∈ report.errors, f.topic = .conflictingConstraints →
        ∃ quantity x y, Disagreement a quantity x y f) ∧
      ∀ quantity x y, ∀ con ∈ a.constraints, ∀ con' ∈ a.constraints, ∀ t t',
        con.Asks quantity x y t → con'.Asks quantity x y t' → 2e-9 < |t - t'| →
          ∃ f ∈ report.errors, f.topic = .conflictingConstraints ∧
            Disagreement a quantity x y f := by
  obtain ⟨report, hreport, hwarnings, herrors⟩ := conflict_errors hvalues c a
  refine ⟨report, hreport, hwarnings, ?_, ?_⟩
  · intro f hf htopic
    obtain ⟨k, hk, rfl⟩ := (herrors f).1 ⟨hf, htopic⟩
    obtain ⟨j, con, -, hclash⟩ := mem_conflicts.1 hk
    obtain ⟨quantity, x, y, -, hsubject⟩ := exists_asks_of_subject? hclash.subject
    exact ⟨quantity, x, y, disagreement_of_mem hk hsubject⟩
  · intro quantity x y con hmem con' hmem' t t' hcon hcon' hfar
    obtain ⟨k, hk, hsubject⟩ :=
      exists_conflict hmem hmem' (asks_iff.1 hcon) (asks_iff.1 hcon') hfar
    obtain ⟨hf, htopic⟩ := (herrors k.finding).2 ⟨k, hk, rfl⟩
    exact ⟨k.finding, hf, htopic, disagreement_of_mem hk hsubject⟩

/-- A distance of four and one of five between the same components, written from either
end: the second is reported. A distance and an angle are not. -/
theorem conflicts_reported_quarrel :
    (∀ [Readout ℝ], ∃ report, reviewBy? Matrix.singularValues? coarse
        (quarrel (.distance 4) (.distance 5)) = .ok report ∧
      ∃ f ∈ report.errors, f.topic = .conflictingConstraints ∧ f.constraint = some "reply") ∧
    ∀ [Readout ℝ], ∃ report, reviewBy? Matrix.singularValues? coarse
        (quarrel (.distance 4) (.angle 5)) = .ok report ∧
      ∀ f ∈ report.errors, f.topic ≠ .conflictingConstraints := by
  constructor
  · intro _
    obtain ⟨report, hreport, -, -, hcomplete⟩ := conflicts_reported Matrix.singularValues?
      singularValues?_exact coarse (quarrel (.distance 4) (.distance 5))
    refine ⟨report, hreport, ?_⟩
    have hfar : (2e-9 : ℝ) < |4 - 5| := by norm_num
    obtain ⟨f, hf, htopic, i, j, con, con', t, t', hlt, -, hj, -, -, -, hconstraint, -⟩ :=
      hcomplete .distance "base" "arm" _ (.head _) _ (.tail _ (.head _)) 4 5 (.inl rfl) (.inr rfl)
        hfar
    refine ⟨f, hf, htopic, hconstraint.trans ?_⟩
    match j, hlt, hj with
    | 1, _, hj =>
      cases hj
      rfl
    | j + 2, _, hj => cases hj
  · intro _
    obtain ⟨report, hreport, -, hsound, -⟩ := conflicts_reported Matrix.singularValues?
      singularValues?_exact coarse (quarrel (.distance 4) (.angle 5))
    refine ⟨report, hreport, fun f hf htopic => ?_⟩
    obtain ⟨quantity, x, y, i, j, con, con', t, t', hlt, hi, hj, hcon, hcon', -, -, -⟩ :=
      hsound f hf htopic
    match j, hlt, hj with
    | 1, hlt, hj =>
      obtain rfl : i = 0 := by omega
      cases hi
      cases hj
      cases quantity with
      | distance => rcases hcon' with h | h <;> cases h
      | angle => rcases hcon with h | h <;> cases h
    | j + 2, _, hj => cases hj

end Review

end Joinery
