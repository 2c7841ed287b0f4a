import Joinery.Decimal.Binary
/-!
# The shortest decimal of a double

Among the decimals that are nearer to a double than to any other, `shortest`
has the fewest digits, and of those it is the nearest, the larger one of two.
The grid of one digit is tried first, then of two, up to seventeen, where there
is always a hit. On a grid only the two neighbours of the double can be the
answer.
-/

namespace Joinery.Double

/-- The reals that round to a double: from `low` to `high` around `middle`, in
units of a power of ten. The ends belong to it when `closed`. -/
structure Interval where
  low : Nat
  middle : Nat
  high : Nat
  exponent : Int
  closed : Bool

/-- Halfway to the neighbours, in quarters of the last place: below a power of
two the neighbour is only half as far. -/
def interval (m : Nat) (q : Int) : Interval :=
  let low := if m = implicitBit ∧ -1074 < q then 4 * m - 1 else 4 * m - 2
  let unit := exact 1 (q - 2)
  ⟨low * unit.digits, 4 * m * unit.digits, (4 * m + 2) * unit.digits, unit.exponent, m % 2 = 0⟩

def Interval.contains (i : Interval) (x : Nat) : Bool :=
  if i.closed then i.low ≤ x ∧ x ≤ i.high else i.low < x ∧ x < i.high

/-- The better of the two neighbours of the middle among the multiples of
`step`, of those that lie in the interval. -/
def Interval.onGrid? (i : Interval) (step : Nat) : Option Nat :=
  let down := i.middle / step * step
  let up := if down = i.middle then down else down + step
  match i.contains down, i.contains up with
  | true, true => some (if i.middle - down < up - i.middle then down else up)
  | true, false => some down
  | false, true => some up
  | false, false => none

/-- The shortest decimal of the double `m · 2 ^ q`. -/
def shortest (m : Nat) (q : Int) : Decimal :=
  let i := interval m q
  let count := Decimal.digitCount i.middle
  let found := (List.range 17).findSome? fun n => i.onGrid? (Nat.pow 10 (count - (n + 1)))
  Decimal.trim ⟨found.getD i.middle, i.exponent⟩

end Joinery.Double
