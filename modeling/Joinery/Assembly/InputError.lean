import Joinery.Breach
import Joinery.Scalar.Basic
/-!
# What can be wrong with the input

Input is refused before anything is computed. Each refusal names its cause;
`InputError.message` has the wording.
-/

namespace Joinery

/-- What is wrong with a component, a constraint or a setting. -/
inductive Reason (α : Type)
  | negativeRadius (got : α)
  | notPositive (name : String) (got : α)
  | tolerance (got : α)
  | distanceTarget (got : α)
  | angleTarget (got : α)
  | planeOffset (got : α)
  | damping (least got : α)
  | growth (got : α)
  | shrink (got : α)
  | noWindow
  | other (text : String)
deriving Repr, DecidableEq

/-- Why an assembly or a group of settings is refused. -/
inductive InputError (α : Type)
  | unknownComponent (constraint component : String)
  | duplicateComponent (component : String)
  | duplicateConstraint (constraint : String)
  /-- Constraints, and nothing they could hold. -/
  | emptyAssembly (constraints : Nat)
  | nonFiniteInput (component : String)
  | invalidComponent (component : String) (reason : Reason α)
  | invalidConstraint (constraint : String) (reason : Reason α)
  | invalidSettings (reason : Reason α)
deriving Repr, DecidableEq

/-- Why there is no result: the input was refused, or a precondition broke on
the way. -/
inductive Failure (α : Type)
  | rejected (error : InputError α)
  | broken (breach : Breach)
deriving Repr, DecidableEq

/-- The value of a checked operation. -/
def Failure.ofBreach {α β : Type} (r : Except Breach β) : Except (Failure α) β :=
  r.mapError .broken

variable {α : Type} [Readout α]

def Reason.message : Reason α → String
  | negativeRadius got => s!"radius must be non-negative, got {Readout.plain got}"
  | notPositive name got => s!"{name} must be positive and finite, got {Readout.plain got}"
  | tolerance got => s!"tolerance must be non-negative and finite, got {Readout.plain got}"
  | distanceTarget got =>
    s!"distance target must be non-negative and finite, got {Readout.plain got}"
  | angleTarget got => s!"angle target must be finite, got {Readout.plain got}"
  | planeOffset got => s!"symmetry plane offset must be finite, got {Readout.plain got}"
  | damping least got =>
    s!"damping must lie in [{Readout.plain least}, 1], got {Readout.plain got}"
  | growth got => s!"damping_growth must be >= 1, got {Readout.plain got}"
  | shrink got => s!"damping_shrink must lie in (0, 1), got {Readout.plain got}"
  | noWindow => "divergence_window must be at least 1"
  | other text => text

def InputError.message : InputError α → String
  | unknownComponent constraint component =>
    s!"constraint `{constraint}` references unknown component `{component}`"
  | duplicateComponent component =>
    s!"component id `{component}` appears more than once in the assembly"
  | duplicateConstraint constraint =>
    s!"constraint id `{constraint}` appears more than once in the assembly"
  | emptyAssembly constraints =>
    s!"assembly has {constraints} constraint(s) but no components"
  | nonFiniteInput component =>
    s!"component `{component}` has a non-finite position, orientation or radius"
  | invalidComponent component reason =>
    s!"component `{component}` is invalid: {reason.message}"
  | invalidConstraint constraint reason =>
    s!"constraint `{constraint}` is invalid: {reason.message}"
  | invalidSettings reason => s!"invalid solver configuration: {reason.message}"

end Joinery
