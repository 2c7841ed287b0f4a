/-!
# Scalars

Everything the solver computes is written once, for any type of numbers that
has the operations below. `Arithmetic` is what matrices need: the four
operations, comparisons and a test for finiteness. `Scalar` adds the square
root and the functions of angles.

Nothing here promises laws. Doubles obey few of them: a sum can be rounded, a
comparison with a value that is not a number is false, and such a value
differs from itself. Laws are assumed where a statement needs them.
-/

namespace Joinery

/-- Numbers with the four operations, comparisons that can be decided, and
decimal constants. -/
class Arithmetic (α : Type) extends Add α, Sub α, Mul α, Div α, Neg α, Zero α, One α,
    NatCast α, OfScientific α, LT α, LE α, BEq α where
  decLt : DecidableLT α
  decLe : DecidableLE α
  /-- The absolute value. -/
  abs : α → α
  /-- False of infinities and of values that are not numbers. -/
  isFinite : α → Bool

instance Arithmetic.decidableLT {α : Type} [Arithmetic α] : DecidableLT α := Arithmetic.decLt

instance Arithmetic.decidableLE {α : Type} [Arithmetic α] : DecidableLE α := Arithmetic.decLe

/-- Numbers with square roots and the functions of angles in radians. -/
class Scalar (α : Type) extends Arithmetic α where
  sqrt : α → α
  sin : α → α
  cos : α → α
  /-- The angle of the point with ordinate `y` (first) and abscissa `x`. -/
  atan2 : α → α → α
  /-- How many radians a degree has. -/
  degree : α
  /-- How many degrees a radian has. -/
  radian : α

/-- How numbers are written in texts meant for people. -/
class Readout (α : Type) where
  /-- All digits that tell the number from its neighbours, without an exponent. -/
  plain : α → String
  /-- Four significant digits and an exponent. -/
  brief : α → String

namespace Arithmetic

variable {α : Type} [Arithmetic α]

/-- A value that is not a number is the only one that differs from itself. -/
def isNaN (x : α) : Bool := !(x == x)

/-- The larger of two numbers; the other one if one of them is not a number. -/
def max (a b : α) : α := if a < b then b else if isNaN a then b else a

/-- The smaller of two numbers; the other one if one of them is not a number. -/
def min (a b : α) : α := if b < a then b else if isNaN a then b else a

/-- The number itself between `lo` and `hi`, else the bound it passed. What is
not a number passes neither. -/
def clamp (x lo hi : α) : α := if x < lo then lo else if hi < x then hi else x

/-- Twice a number. -/
def twice (x : α) : α := (1 + 1) * x

end Arithmetic

end Joinery
