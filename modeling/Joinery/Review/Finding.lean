import Joinery.Assembly.InputError
/-!
# Findings

What a review has to say about an assembly, one thing at a time. Errors make an
assembly invalid; warnings may be intended.
-/

namespace Joinery.Review

inductive Severity
  | error
  | warning
deriving Repr, DecidableEq

/-- What a finding is about. -/
inductive Topic
  | unknownComponent
  | duplicateComponent
  | duplicateConstraint
  | emptyAssembly
  | invalidConstraint
  | invalidComponent
  | nonFiniteInput
  /-- A constraint between a component and itself. -/
  | selfReference
  /-- Nothing is fixed, so the whole assembly can move. -/
  | noFixedConstraint
  /-- More freedom is taken away than there is. -/
  | overConstrained
  /-- Freedom remains. -/
  | underConstrained
  /-- Two numbers for the same thing. -/
  | conflictingConstraints
  /-- Rows that follow from others. -/
  | redundantConstraints
  /-- A constraint on directions where nothing turns. -/
  | inertConstraint
deriving Repr, DecidableEq

namespace Topic

def all : List Topic :=
  [unknownComponent, duplicateComponent, duplicateConstraint, emptyAssembly, invalidConstraint,
    invalidComponent, nonFiniteInput, selfReference, noFixedConstraint, overConstrained,
    underConstrained, conflictingConstraints, redundantConstraints, inertConstraint]

def name : Topic → String
  | unknownComponent => "UnknownComponent"
  | duplicateComponent => "DuplicateComponent"
  | duplicateConstraint => "DuplicateConstraint"
  | emptyAssembly => "EmptyAssembly"
  | invalidConstraint => "InvalidConstraint"
  | invalidComponent => "InvalidComponent"
  | nonFiniteInput => "NonFiniteInput"
  | selfReference => "SelfReference"
  | noFixedConstraint => "NoFixedConstraint"
  | overConstrained => "OverConstrained"
  | underConstrained => "UnderConstrained"
  | conflictingConstraints => "ConflictingConstraints"
  | redundantConstraints => "RedundantConstraints"
  | inertConstraint => "InertConstraint"

end Topic

structure Finding where
  topic : Topic
  severity : Severity
  message : String
  /-- The constraint that the finding is about, if it is about one. -/
  constraint : Option String
deriving Repr, DecidableEq

namespace Finding

def error (topic : Topic) (message : String) (constraint : Option String) : Finding :=
  ⟨topic, .error, message, constraint⟩

def warning (topic : Topic) (message : String) (constraint : Option String) : Finding :=
  ⟨topic, .warning, message, constraint⟩

/-- The finding as one line. -/
def line (f : Finding) : String :=
  let severity := match f.severity with
    | .error => "ERROR"
    | .warning => "WARN"
  let about := match f.constraint with
    | some constraint => s!" (constraint {constraint})"
    | none => ""
  s!"[{severity}] {f.topic.name}: {f.message}{about}"

/-- What a refusal of the input is about. -/
def topicOf {α : Type} : InputError α → Topic × Option String
  | .unknownComponent constraint _ => (.unknownComponent, some constraint)
  | .duplicateComponent _ => (.duplicateComponent, none)
  | .duplicateConstraint constraint => (.duplicateConstraint, some constraint)
  | .emptyAssembly _ => (.emptyAssembly, none)
  | .nonFiniteInput _ => (.nonFiniteInput, none)
  | .invalidComponent _ _ => (.invalidComponent, none)
  | .invalidConstraint constraint _ => (.invalidConstraint, some constraint)
  | .invalidSettings _ => (.invalidConstraint, none)

/-- The finding for a refusal of the input. -/
def ofInputError {α : Type} [Readout α] (e : InputError α) : Finding :=
  error (topicOf e).1 e.message (topicOf e).2

end Finding

end Joinery.Review
