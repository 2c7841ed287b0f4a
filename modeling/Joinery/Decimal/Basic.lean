/-!
# Decimals

A `Decimal` is a magnitude: whole digits times a power of ten. Signs are kept
apart. The operations round to the nearest multiple of a power of ten, and a
half goes to the even neighbour (`roundDiv`).
-/

namespace Joinery

/-- The magnitude `digits · 10 ^ exponent`. -/
structure Decimal where
  digits : Nat
  exponent : Int
deriving Repr, DecidableEq

/-- The whole number nearest to `num / den`, the even one of two. -/
def roundDiv (num den : Nat) : Nat :=
  let q := num / den
  let r := num % den
  if 2 * r < den then q
  else if den < 2 * r then q + 1
  else if q % 2 = 0 then q else q + 1

namespace Decimal

/-- How many digits a whole number has; zero has one. -/
def digitCount (n : Nat) : Nat := (Nat.toDigits 10 n).length

/-- The power of ten of the leading digit. -/
def leading (d : Decimal) : Int := d.exponent + digitCount d.digits - 1

/-- The nearest multiple of `10 ^ place`. -/
def roundAt (d : Decimal) (place : Int) : Decimal :=
  if place ≤ d.exponent then ⟨d.digits * Nat.pow 10 (d.exponent - place).toNat, place⟩
  else ⟨roundDiv d.digits (Nat.pow 10 (place - d.exponent).toNat), place⟩

/-- The nearest decimal of `n` digits. Rounding up from nines gives a digit
more, and that digit is a zero that can go. -/
def roundDigits (d : Decimal) (n : Nat) : Decimal :=
  let r := d.roundAt (d.leading + 1 - n)
  if n < digitCount r.digits then ⟨r.digits / 10, r.exponent + 1⟩ else r

/-- Keeps `places` digits after the leading one of a magnitude from one on, and
`places` digits after the point of a smaller one. -/
def abridge (d : Decimal) (places : Nat) : Decimal :=
  if d.digits ≠ 0 ∧ 0 ≤ d.leading then d.roundDigits (places + 1)
  else d.roundAt (-(places : Int))

/-- Drops the zeros at the end of the digits. -/
def trim (d : Decimal) : Decimal :=
  if h : d.digits ≠ 0 ∧ d.digits % 10 = 0 then
    trim ⟨d.digits / 10, d.exponent + 1⟩
  else if d.digits = 0 then ⟨0, 0⟩
  else d
termination_by d.digits
decreasing_by omega

/-! ## Texts -/

private def zeros (n : Nat) : String := String.ofList (List.replicate n '0')

/-- All digits, with a point where one is needed and no exponent. -/
def positional (d : Decimal) : String :=
  let text := toString d.digits
  if 0 ≤ d.exponent then
    if d.digits = 0 then "0" else text ++ zeros d.exponent.toNat
  else
    let places := (-d.exponent).toNat
    let padded := zeros (places + 1 - text.length) ++ text
    let whole := padded.length - places
    String.ofList (padded.toList.take whole) ++ "." ++ String.ofList (padded.toList.drop whole)

/-- One digit, a point, the other digits and the power of ten of the first:
`1.25e3`. Without other digits there is no point. -/
def scientific (d : Decimal) : String :=
  match (toString d.digits).toList with
  | [] => "0e0"
  | first :: rest =>
    let power := if d.digits = 0 then 0 else d.leading
    let tail := if rest.isEmpty then "" else "." ++ String.ofList rest
    String.singleton first ++ tail ++ "e" ++ toString power

end Decimal

end Joinery
