import Joinery.Decimal.Shortest
import Joinery.Scalar.Basic
/-!
# Doubles in texts

How a double reads in a message: all the digits that tell it from its
neighbours (`plain`), or four digits and an exponent (`brief`).
-/

namespace Joinery.Double

/-- The text of a double, given the text of a magnitude. A negative zero keeps
its sign. -/
def read (magnitude : Nat → Int → String) (x : Float) : String :=
  match shape x with
  | .nan => "NaN"
  | .infinite negative => if negative then "-inf" else "inf"
  | .finite negative m q => (if negative then "-" else "") ++ magnitude m q

/-- `0.001`, `-5`, `1000000000000000000000`. -/
def plain : Float → String := read fun m q => (shortest m q).positional

/-- `5.000e1`, `8.977e-6`. -/
def brief : Float → String := read fun m q =>
  if m = 0 then "0.000e0" else ((exact m q).roundDigits 4).scientific

instance : Readout Float := ⟨plain, brief⟩

end Joinery.Double
