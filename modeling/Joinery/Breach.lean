/-!
# Broken preconditions

An operation that holds only for some arguments has a checked form, whose name
ends in a question mark. It answers a `Breach` where the arguments break the
rule. A breach is a mistake of the caller, not of the assembly at hand.
-/

namespace Joinery

inductive Breach
  /-- An index beyond the end. -/
  | outOfRange
  /-- Two operands whose sizes do not match. -/
  | sizes
  /-- A matrix with as many rows as columns was asked for. -/
  | notSquare
  /-- A reference to a component that is not there. -/
  | danglingReference
  /-- A counter that cannot go on. -/
  | exhausted
  /-- A size or an index that is larger than any can be. -/
  | tooLarge
  /-- Values to be put in order that are not numbers. -/
  | unordered
deriving Repr, DecidableEq

/-- The value if the rule holds, else the breach. Where the rule does not hold
the value is not computed. -/
@[macro_inline]
def Breach.unless {β : Type} (rule : Prop) [Decidable rule] (breach : Breach) (value : β) :
    Except Breach β :=
  if rule then .ok value else .error breach

end Joinery
