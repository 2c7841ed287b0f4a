import Joinery.Decimal.Readout
import Joinery.Newton.Outcome
import Joinery.Proofs.Linkage.Acceptance
import Joinery.Proofs.Newton.Totality
import Joinery.Review.Report
/-!
# Reviews and solves agree

A review collects what a solve would stop at. It takes the same problems, and where
there is none it makes the same linkage, so it finds a rank exactly where a solve
has an outcome, and where a solve fails its error is among those of the review.
What it is for a finding to say the same as an error is spelled out apart from how
findings are made (`StatedBy`).
-/

namespace Joinery.Review

open Joinery.Dense Joinery.Newton

variable {α : Type}

/-! ## What findings say of refusals -/

/-- What a refusal is about, cause by cause: a topic, and the constraint if there
is one to name. -/
inductive Concerns : InputError α → Topic → Option String → Prop
  | unknownComponent (constraint component : String) :
    Concerns (.unknownComponent constraint component) .unknownComponent (some constraint)
  | duplicateComponent (component : String) :
    Concerns (.duplicateComponent component) .duplicateComponent none
  | duplicateConstraint (constraint : String) :
    Concerns (.duplicateConstraint constraint) .duplicateConstraint (some constraint)
  | emptyAssembly (constraints : Nat) :
    Concerns (.emptyAssembly constraints) .emptyAssembly none
  | nonFiniteInput (component : String) :
    Concerns (.nonFiniteInput component) .nonFiniteInput none
  | invalidComponent (component : String) (reason : Reason α) :
    Concerns (.invalidComponent component reason) .invalidComponent none
  | invalidConstraint (constraint : String) (reason : Reason α) :
    Concerns (.invalidConstraint constraint reason) .invalidConstraint (some constraint)
  /-- Settings have no topic of their own. -/
  | invalidSettings (reason : Reason α) :
    Concerns (.invalidSettings reason) .invalidConstraint none

section Errors

variable [Readout α]

/-- The finding is an error about what the refusal is about, in its words. -/
structure StatedBy (e : InputError α) (f : Finding) : Prop where
  concerns : Concerns e f.topic f.constraint
  severity : f.severity = .error
  message : f.message = e.message

/-- One finding states a refusal: the one made from it. -/
theorem statedBy_iff {e : InputError α} {f : Finding} :
    StatedBy e f ↔ Finding.ofInputError e = f := by
  constructor
  · obtain ⟨topic, severity, message, constraint⟩ := f
    rintro ⟨hconcerns, rfl, rfl⟩
    cases hconcerns <;> rfl
  · rintro rfl
    refine ⟨?_, rfl, rfl⟩
    cases e <;> constructor

/-- Findings state refusals one by one exactly if they are made from them in turn. -/
theorem forall₂_statedBy_iff {errors : List (InputError α)} {findings : List Finding} :
    List.Forall₂ StatedBy errors findings ↔ errors.map Finding.ofInputError = findings := by
  simp only [← List.forall₂_eq_eq_eq, List.forall₂_map_left_iff, ← statedBy_iff]

/-! ## Errors of a report -/

@[simp]
theorem severity_ofInputError (e : InputError α) : (Finding.ofInputError e).severity = .error := rfl

/-- Errors of the input that come first stay first. -/
theorem isPrefix_errors (errors : List (InputError α)) (rest : List Finding) (freedom : Int)
    (rank : Option Nat) :
    errors.map Finding.ofInputError <+:
      (Report.ofFindings (errors.map .ofInputError ++ rest) freedom rank).errors := by
  have hself : (errors.map Finding.ofInputError).filter (·.severity = .error) =
      errors.map .ofInputError := by
    refine List.filter_eq_self.2 fun finding hfinding => ?_
    obtain ⟨e, -, rfl⟩ := List.mem_map.1 hfinding
    simp
  refine ⟨rest.filter (·.severity = .error), ?_⟩
  rw [Report.ofFindings, List.filter_append, hself]

/-- An error of the input among the findings makes a report invalid. -/
theorem invalid_of_mem {findings : List Finding} {e : InputError α} (freedom : Int)
    (rank : Option Nat) (h : Finding.ofInputError e ∈ findings) :
    Finding.ofInputError e ∈ (Report.ofFindings findings freedom rank).errors ∧
      (Report.ofFindings findings freedom rank).isValid = false := by
  have hmem : Finding.ofInputError e ∈ findings.filter (·.severity = .error) :=
    List.mem_filter.2 ⟨h, by simp⟩
  refine ⟨hmem, ?_⟩
  rw [Report.ofFindings]
  exact List.isEmpty_eq_false_iff.2 (List.ne_nil_of_mem hmem)

end Errors

/-! ## Ranks -/

variable [Scalar α]

section Ranks

variable {singularValues? : Matrix α → Except Breach (List α)}
  (hvalues : ∀ m, ∃ values, singularValues? m = .ok values)

include hvalues

theorem rankOf?_total (slopes : Matrix α) :
    ∃ rank telling, rankOf? singularValues? slopes = .ok (rank, telling) := by
  unfold rankOf?
  dsimp only
  split
  case isTrue => exact ⟨_, _, rfl⟩
  case isFalse =>
    obtain ⟨values, h⟩ := hvalues (slopes.selectRows (tellingRows slopes))
    rw [h]
    exact ⟨_, _, rfl⟩

/-- An assembly with a linkage has a rank. -/
theorem rankFindings?_of_linked [Readout α] {c : Settings α} {a : Assembly α} {L : Linkage α}
    (hL : a.link? .empty c.turning = .ok L) :
    ∃ late rank, rankFindings? singularValues? c a = .ok (late, some rank) := by
  obtain ⟨hwell, -, heq⟩ := Assembly.link?_eq_ok_iff.1 hL
  have hsound : L.Sound := heq ▸ Linkage.sound_linkage hwell .empty c.turning
  have hslopes : L.slopes? L.initialState c.slopeStep = .ok (L.slopes L.initialState c.slopeStep) :=
    if_pos (hsound.canRead hsound.regular.size_initialState)
  obtain ⟨rank, telling, hrank⟩ := rankOf?_total hvalues (L.slopes L.initialState c.slopeStep)
  refine ⟨redundancyFindings rank telling, rank, ?_⟩
  rw [rankFindings?, hL]
  dsimp only
  rw [hslopes, ok_bind, hrank]
  rfl

end Ranks

/-! ## Reports -/

variable [Readout α]

/-- What a report says of a solve of the same assembly. -/
structure Report.Foretells (report : Report) (c : Settings α) (a : Assembly α) : Prop where
  rank : report.rank.isSome = true ↔ ∃ o, solve c a .empty = .ok o
  failure : ∀ e, solve c a .empty = .error e →
    ∃ error, e = .rejected error ∧ (∃ finding ∈ report.errors, StatedBy error finding) ∧
      report.isValid = false
  valid : report.isValid = true → ∃ o, solve c a .empty = .ok o
  problems : ∃ findings, List.Forall₂ StatedBy a.problems findings ∧ findings <+: report.errors

/-- A report with the right rank and the error of a solve that fails. -/
theorem Report.foretells_of {report : Report} {c : Settings α} {a : Assembly α}
    (hproblems : a.problems.map Finding.ofInputError <+: report.errors)
    (h : (report.rank.isSome = true ∧ ∃ o, solve c a .empty = .ok o) ∨
      (report.rank = none ∧ ∃ error, solve c a .empty = .error (.rejected error) ∧
        Finding.ofInputError error ∈ report.errors ∧ report.isValid = false)) :
    report.Foretells c a := by
  have hstated : ∃ findings, List.Forall₂ StatedBy a.problems findings ∧
      findings <+: report.errors :=
    ⟨_, forall₂_statedBy_iff.2 rfl, hproblems⟩
  rcases h with ⟨hrank, o, ho⟩ | ⟨hrank, error, herror, hmem, hinvalid⟩
  · refine ⟨iff_of_true hrank ⟨o, ho⟩, fun e he => ?_, fun _ => ⟨o, ho⟩, hstated⟩
    cases he.symm.trans ho
  · refine ⟨iff_of_false (by simp [hrank]) ?_, fun e he => ?_, fun hvalid => ?_, hstated⟩
    · rintro ⟨o, ho⟩
      cases ho.symm.trans herror
    · cases he.symm.trans herror
      exact ⟨error, rfl, ⟨_, hmem, statedBy_iff.2 rfl⟩, hinvalid⟩
    · cases hvalid.symm.trans hinvalid

/-- A review with settings in range has a report wherever singular values come
from, as long as there are some, and the report foretells the solve. -/
theorem review_foretells {singularValues? : Matrix α → Except Breach (List α)}
    (hvalues : ∀ m, ∃ values, singularValues? m = .ok values) {c : Settings α}
    (hc : c.check = .ok ()) (a : Assembly α) :
    ∃ report, reviewBy? singularValues? c a = .ok report ∧ report.Foretells c a := by
  cases hproblems : a.problems with
  | cons first rest =>
    have hlink : a.link? .empty c.turning = .error (.rejected first) := by
      rw [Assembly.link?_eq, hproblems]
      rfl
    refine ⟨_, by rw [reviewBy?, hproblems]; rfl, Report.foretells_of ?_ (.inr ⟨rfl, first, ?_⟩)⟩
    · rw [hproblems, List.append_assoc]
      exact isPrefix_errors _ _ _ _
    · exact ⟨solve_of_unlinked hc hlink, invalid_of_mem _ _ (by simp)⟩
  | nil =>
    rcases link?_total a .empty c.turning with ⟨L, hL⟩ | ⟨e, he⟩
    · obtain ⟨late, rank, hrank⟩ := rankFindings?_of_linked hvalues hL
      refine ⟨_, by rw [reviewBy?, hproblems]; dsimp only; rw [hrank]; rfl,
        Report.foretells_of ?_ (.inl ⟨rfl, solve_of_linked hc hL⟩)⟩
      rw [hproblems]
      exact List.nil_prefix
    · have hrank : rankFindings? singularValues? c a = .ok ([.ofInputError e], none) := by
        rw [rankFindings?, he]
        rfl
      refine ⟨_, by rw [reviewBy?, hproblems]; dsimp only; rw [hrank]; rfl,
        Report.foretells_of ?_ (.inr ⟨rfl, e, solve_of_unlinked hc he, invalid_of_mem _ _ ?_⟩)⟩
      · rw [hproblems]
        exact List.nil_prefix
      · simp

/-- A plinth on the ground. -/
def plinth : Assembly Float where
  metadata := ⟨⟨0⟩, "plinth", 1, ⟨⟨2000, 1, 1⟩, 0, 0⟩, ⟨⟨2000, 1, 1⟩, 0, 0⟩⟩
  components := [⟨"plinth", ⟨0, 0, 0⟩, .identity, .empty⟩]
  constraints := [⟨"ground", .fixed "plinth", none, 1⟩]

/-- A valid review on doubles of an assembly that is then solved, and an invalid
one whose errors start with the problems of the assembly, the error of the solve
first. -/
theorem review_foretells_plinth :
    (∃ report, reviewBy? (fun m => .ok m.singularValues) Settings.standard plinth = .ok report ∧
      report.isValid = true ∧ ∃ o, solve Settings.standard plinth .empty = .ok o) ∧
    ∃ report, reviewBy? (fun m => .ok m.singularValues) Settings.standard Assembly.stack =
        .ok report ∧
      report.isValid = false ∧ report.rank = none ∧
      [⟨.duplicateComponent, .error,
          "component id `shelf` appears more than once in the assembly", none⟩,
        ⟨.duplicateComponent, .error,
          "component id `shelf` appears more than once in the assembly", none⟩,
        ⟨.unknownComponent, .error,
          "constraint `screw` references unknown component `wall`", some "screw"⟩] <+:
        report.errors := by
  have hcheck : (Settings.standard : Settings Float).check = .ok () := by rfl
  have hvalues : ∀ m : Matrix Float, ∃ values,
      (.ok m.singularValues : Except Breach (List Float)) = .ok values := fun m => ⟨_, rfl⟩
  have hsolve : solve Settings.standard Assembly.stack .empty =
      .error (.rejected (.duplicateComponent "shelf")) := by rfl
  constructor
  · have hvalid : (reviewBy? (fun m => .ok m.singularValues) Settings.standard
        plinth).toOption.any (·.isValid) = true := by
      decide +kernel
    obtain ⟨report, hreport, hvalid⟩ := exists_eq_ok hvalid
    obtain ⟨report', hreport', hforetells⟩ := review_foretells hvalues hcheck plinth
    cases hreport.symm.trans hreport'
    exact ⟨report, hreport, hvalid, hforetells.valid hvalid⟩
  · obtain ⟨report, hreport, hforetells⟩ := review_foretells hvalues hcheck Assembly.stack
    obtain ⟨error, -, -, hinvalid⟩ := hforetells.failure _ hsolve
    have hrank : report.rank = none := by
      refine Option.not_isSome_iff_eq_none.1 fun hsome => ?_
      obtain ⟨o, ho⟩ := hforetells.rank.1 hsome
      cases hsolve.symm.trans ho
    obtain ⟨findings, hstates, hprefix⟩ := hforetells.problems
    have hfindings := forall₂_statedBy_iff.1 hstates
    refine ⟨report, hreport, hinvalid, hrank, .trans ?_ (hfindings ▸ hprefix)⟩
    decide +kernel

end Joinery.Review
