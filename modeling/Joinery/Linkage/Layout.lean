import Joinery.Assembly.Constraint
/-!
# Layouts

The state of a solve is one array. Every component that is not pinned owns a
stretch of it, in the order of the components: three coordinates, and three
angles after them where components turn.
-/

namespace Joinery

/-- Where each component's stretch of the state starts, if it has one. -/
structure Layout where
  /-- Whether orientations are part of the state. -/
  turning : Bool
  offsets : Array (Option Nat)
  /-- How long a state is. -/
  size : Nat
deriving Repr, DecidableEq

namespace Layout

/-- Gives stretches of length `stride`, from `start` on, to what is not pinned. -/
def assign (stride start : Nat) : List Bool → List (Option Nat)
  | [] => []
  | true :: rest => none :: assign stride start rest
  | false :: rest => some start :: assign stride (start + stride) rest

/-- The layout for components of which some are pinned. -/
def ofPinned (turning : Bool) (pinned : List Bool) : Layout :=
  let stride := freedomOfPart turning
  ⟨turning, (assign stride 0 pinned).toArray, stride * pinned.count false⟩

/-- Where the stretch of a component starts; none for a pinned one. -/
def offset? (l : Layout) (i : Nat) : Option Nat := l.offsets.getD i none

def isPinned (l : Layout) (i : Nat) : Bool := (l.offset? i).isNone

/-- How many variables a component has that is not pinned. -/
def stride (l : Layout) : Nat := freedomOfPart l.turning

/-- Whether variable `j` belongs to component `i`. -/
def owns (l : Layout) (i j : Nat) : Bool :=
  match l.offset? i with
  | some start => start ≤ j ∧ j < start + l.stride
  | none => false

/-- Which coordinate of the position of component `i` variable `j` is. -/
def coordinate? (l : Layout) (i j : Nat) : Option Nat :=
  match l.offset? i with
  | some start => if start ≤ j ∧ j < start + 3 then some (j - start) else none
  | none => none

@[simp]
theorem length_assign (stride start : Nat) (pinned : List Bool) :
    (assign stride start pinned).length = pinned.length := by
  induction pinned generalizing start with
  | nil => rfl
  | cons p rest ih => cases p <;> simp [assign, ih]

end Layout

end Joinery
