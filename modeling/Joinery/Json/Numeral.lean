import Joinery.Decimal.Shortest
/-!
# Numerals

A numeral is a number as a text spells it: digits, a power of ten, and whether
it was spelled as a whole number, without a point or an exponent. Its value is
exact; making a double of it rounds once.
-/

namespace Joinery

structure Numeral where
  negative : Bool
  digits : Nat
  exponent : Int
  /-- Without a point and without an exponent. -/
  whole : Bool
deriving Repr, DecidableEq

namespace Numeral

def ofNat (n : Nat) : Numeral := ⟨false, n, 0, true⟩

def ofInt (n : Int) : Numeral := ⟨n < 0, n.natAbs, 0, true⟩

def ofDecimal (negative : Bool) (d : Decimal) : Numeral := ⟨negative, d.digits, d.exponent, false⟩

/-- The whole number spelled without a sign. -/
def natural? (n : Numeral) : Option Nat := if n.whole && !n.negative then some n.digits else none

/-- The whole number spelled, where a zero with a sign is none. -/
def integer? (n : Numeral) : Option Int :=
  if !n.whole then none
  else if !n.negative then some n.digits
  else if n.digits = 0 then none
  else some (-(n.digits : Int))

/-- The nearest double, infinite if the value is beyond all doubles. -/
def nearest (n : Numeral) : Float :=
  let magnitude := Float.ofScientific n.digits (n.exponent < 0) n.exponent.natAbs
  if n.negative then -magnitude else magnitude

/-- The nearest double, if the value is not beyond all doubles. -/
def double? (n : Numeral) : Option Float :=
  if n.nearest.isFinite then some n.nearest else none

/-- Small powers of ten are written out, others as an exponent. A number that
is not whole has a point or an exponent. -/
def render (n : Numeral) : String :=
  let d : Decimal := ⟨n.digits, n.exponent⟩
  let magnitude :=
    if n.whole then toString n.digits
    else if -7 ≤ d.leading ∧ d.leading < 21 then
      d.positional ++ if 0 ≤ d.exponent then ".0" else ""
    else d.scientific
  (if n.negative then "-" else "") ++ magnitude

end Numeral

namespace Double

/-- The numeral of a finite double: the shortest that reads back. -/
def numeral? (x : Float) : Option Numeral :=
  match shape x with
  | .finite negative m q => some (.ofDecimal negative (shortest m q))
  | _ => none

end Double

end Joinery
