import Joinery.Decimal.Basic
/-!
# Doubles taken apart

A finite double is a sign and a magnitude `m · 2 ^ q`, and every such magnitude
is a decimal: a negative power of two is the same power of ten with as many
fives (`exact`).
-/

namespace Joinery.Double

/-- What the bits of a double say. -/
inductive Shape
  | nan
  | infinite (negative : Bool)
  | finite (negative : Bool) (m : Nat) (q : Int)
deriving Repr, DecidableEq

/-- The bit above the fraction, two to the 52nd: set in every magnitude but the
smallest, and not stored. -/
def implicitBit : Nat := 4503599627370496

/-- The shape behind 64 bits: a sign, eleven bits of exponent, the fraction. -/
def shapeOfBits (bits : Nat) : Shape :=
  let negative := bits / implicitBit / 2048 % 2 = 1
  let power : Nat := bits / implicitBit % 2048
  let fraction := bits % implicitBit
  if power = 2047 then
    if fraction = 0 then .infinite negative else .nan
  else if power = 0 then .finite negative fraction (-1074)
  else .finite negative (implicitBit + fraction) ((power : Int) - 1075)

def shape (x : Float) : Shape := shapeOfBits x.toBits.toNat

/-- The decimal equal to `m · 2 ^ q`. -/
def exact (m : Nat) (q : Int) : Decimal :=
  if 0 ≤ q then ⟨m * Nat.pow 2 q.toNat, 0⟩ else ⟨m * Nat.pow 5 (-q).toNat, q⟩

end Joinery.Double
