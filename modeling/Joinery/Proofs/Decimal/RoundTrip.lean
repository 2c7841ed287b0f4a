import Mathlib
import Joinery.Json.Numeral
import Joinery.Proofs.Decimal.Reading
import Joinery.Proofs.Decimal.Shortest
/-!
# Doubles are read back

The word of a finite double is its sign, its mantissa and its exponent, so no two doubles have
the same shape. The shortest decimal of a double is read as one of its shape, which is the
double itself.
-/

namespace Joinery.Double

open Float.Model (UnpackedFloat Format)
open Float.Model.UnpackedFloat

/-! ## Shapes -/

/-- What the parts of a double say of its shape. A zero is the least mantissa that there is. -/
def shapeOfParts : UnpackedFloat → Shape
  | .notANumber => .nan
  | .infinity s => .infinite (s matches .negative)
  | .zero s => .finite (s matches .negative) 0 (-1074)
  | .finite s m e _ => .finite (s matches .negative) m e

section Fields

variable (b : BitVec format.numBits)

theorem toNat_mantissa : (@unpackMantissa format b).toNat = b.toNat % 2 ^ 52 := by
  simp [unpackMantissa]

theorem toNat_exponent : (@unpackExponent format b).toNat = b.toNat / 2 ^ 52 % 2 ^ 11 := by
  simp [unpackExponent, Nat.shiftRight_eq_div_pow]

theorem toNat_sign : (@unpackSign format b).toNat = b.toNat / 2 ^ 63 % 2 := by
  simp [unpackSign, Nat.shiftRight_eq_div_pow]

theorem negative_eq : (Sign.ofBitVec (@unpackSign format b) matches .negative) =
    decide (b.toNat / implicitBit / 2048 % 2 = 1) := by
  have hsign : b.toNat / implicitBit / 2048 % 2 = (@unpackSign format b).toNat := by
    rw [toNat_sign, Nat.div_div_eq_div_mul]
    rfl
  rw [hsign]
  unfold Sign.ofBitVec
  by_cases hzero : @unpackSign format b = 0#1
  · rw [if_pos hzero, hzero]
    rfl
  · have hone : (@unpackSign format b).toNat = 1 := by
      have hlt := (@unpackSign format b).isLt
      have hne : (@unpackSign format b).toNat ≠ 0 := fun h => hzero (BitVec.eq_of_toNat_eq h)
      omega
    rw [if_neg hzero, hone]
    rfl

theorem shapeOfBits_eq : shapeOfBits b.toNat = shapeOfParts (unpack format b) := by
  have hmantissa : (@unpackMantissa format b).toNat = b.toNat % implicitBit := toNat_mantissa b
  have hexponent : (@unpackExponent format b).toNat = b.toNat / implicitBit % 2048 :=
    toNat_exponent b
  have hbias : ((format.exponentBias : ℕ) : ℤ) = 1023 := rfl
  unfold shapeOfBits Float.Model.UnpackedFloat.unpack
  dsimp only
  rw [← negative_eq, ← hmantissa, ← hexponent]
  by_cases hlast : (@unpackExponent format b).toNat = 2047
  · have hlast' : @unpackExponent format b = -1#_ := BitVec.eq_of_toNat_eq hlast
    rw [if_pos hlast, if_pos hlast']
    by_cases hzero : (@unpackMantissa format b).toNat = 0
    · have hzero' : @unpackMantissa format b = 0#_ := BitVec.eq_of_toNat_eq hzero
      rw [if_pos hzero, if_pos hzero']
      rfl
    · rw [if_neg hzero, if_neg (fun h => hzero (congrArg BitVec.toNat h))]
      rfl
  · rw [if_neg hlast, if_neg (fun h => hlast (congrArg BitVec.toNat h))]
    by_cases hfirst : (@unpackExponent format b).toNat = 0
    · have hfirst' : @unpackExponent format b = 0#_ := BitVec.eq_of_toNat_eq hfirst
      rw [if_pos hfirst, if_pos hfirst']
      by_cases hzero : (@unpackMantissa format b).toNat = 0
      · have hzero' : @unpackMantissa format b = 0#_ := BitVec.eq_of_toNat_eq hzero
        rw [dif_pos hzero', hzero]
        rfl
      · rw [dif_neg (fun h => hzero (congrArg BitVec.toNat h)), hfirst, hbias]
        rfl
    · rw [if_neg hfirst, if_neg (fun h => hfirst (congrArg BitVec.toNat h))]
      have hfull : (1#1 ++ @unpackMantissa format b).toNat =
          implicitBit + (@unpackMantissa format b).toNat := toNat_implicit _
      refine congrArg₂ (Shape.finite _) hfull.symm ?_
      rw [hbias]
      rfl

end Fields

theorem shape_eq (x : Float) : shape x = shapeOfParts (parts x) := shapeOfBits_eq _

theorem isFinite_iff_shape {x : Float} :
    Arithmetic.isFinite x = true ↔ ∃ negative m q, shape x = .finite negative m q := by
  rw [shape_eq]
  show (parts x).isFinite = true ↔ _
  rcases parts x with s | _ | s | ⟨s, m, e, hm⟩ <;>
    simp [Float.Model.UnpackedFloat.isFinite, shapeOfParts]

/-- A word is its sign, its exponent field and its mantissa field. -/
theorem bits_eq_fields {bits : ℕ} (hbits : bits < 2 ^ 64) :
    bits = (if decide (bits / implicitBit / 2048 % 2 = 1) then 2 ^ 63 else 0) +
      (bits / implicitBit % 2048 * implicitBit + bits % implicitBit) := by
  by_cases hsign : bits / implicitBit / 2048 % 2 = 1
  · rw [decide_eq_true hsign, if_pos rfl]
    simp only [implicitBit] at *
    omega
  · rw [decide_eq_false hsign, if_neg Bool.false_ne_true]
    simp only [implicitBit] at *
    omega

/-- A finite shape is that of one word only. -/
theorem bits_of_shape {bits : ℕ} (hbits : bits < 2 ^ 64) {negative : Bool} {m : ℕ} {q : ℤ}
    (h : shapeOfBits bits = .finite negative m q) :
    bits = (if negative then 2 ^ 63 else 0) +
      if m < implicitBit then m else (q + 1075).toNat * implicitBit + (m - implicitBit) := by
  have hfields := bits_eq_fields hbits
  unfold shapeOfBits at h
  dsimp only at h
  split at h
  case isTrue => split at h <;> cases h
  case isFalse =>
    split at h
    case isTrue hfirst =>
      cases h
      rw [hfirst, zero_mul, zero_add] at hfields
      rwa [if_pos (Nat.mod_lt _ (by decide))]
    case isFalse hfirst =>
      cases h
      rw [if_neg (Nat.not_lt.2 (Nat.le_add_right _ _)), Nat.add_sub_cancel_left,
        sub_add_cancel, Int.toNat_natCast]
      exact hfields

/-- Finite doubles of the same shape are equal. -/
theorem eq_of_shape {x y : Float} {negative : Bool} {m : ℕ} {q : ℤ}
    (hx : shape x = .finite negative m q) (hy : shape y = .finite negative m q) : x = y := by
  have hbits : x.toBits.toNat = y.toBits.toNat :=
    (bits_of_shape x.toBits.toNat_lt hx).trans (bits_of_shape y.toBits.toNat_lt hy).symm
  have hwords := UInt64.toNat_inj.1 hbits
  obtain ⟨⟨bits, hvalid⟩⟩ := x
  obtain ⟨⟨bits', hvalid'⟩⟩ := y
  cases hwords
  rfl

/-! ## Numerals -/

theorem parts_neg (x : Float) : parts (-x) = stored (parts x).neg := rfl

/-- The magnitude of a finite double is read from its shortest decimal. -/
theorem shape_ofScientific_shortest {x : Float} {negative : Bool} {m : ℕ} {q : ℤ}
    (hx : shape x = .finite negative m q) :
    shape (Float.ofScientific (shortest m q).digits ((shortest m q).exponent < 0)
      (shortest m q).exponent.natAbs) = .finite false m q := by
  have hrep := representable_parts x
  rw [shape_eq] at hx ⊢
  rcases hparts : parts x with s | _ | s | ⟨s, m', e, hm⟩ <;> rw [hparts] at hx hrep <;>
    cases hx
  case zero =>
    have hzero : shortest 0 (-1074) = ⟨0, 0⟩ := by decide +kernel
    rw [hzero, ← shape_eq]
    decide +kernel
  case finite =>
    have hv := roundsTo_shortest hm q
    have hdigits : 0 < (shortest m q).digits := by
      refine Nat.pos_of_ne_zero fun hzero => ?_
      have hpos := hv.pos hm
      rw [Decimal.value, hzero, Nat.cast_zero, zero_mul] at hpos
      exact lt_irrefl _ hpos
    have hrep' : Representable (.finite .positive m q hm) := hrep
    rw [parts_ofScientific hrep' hdigits hv]
    rfl

theorem shape_neg {y : Float} {m : ℕ} {q : ℤ} (hy : shape y = .finite false m q) :
    shape (-y) = .finite true m q := by
  have hrep := representable_parts y
  rw [shape_eq] at hy ⊢
  rw [parts_neg]
  rcases hparts : parts y with (_ | _) | _ | (_ | _) | ⟨_ | _, m', e, hm⟩ <;>
    rw [hparts] at hy hrep <;> cases hy
  case zero.positive => rfl
  case finite.positive =>
    have hrep' : Representable (.finite .negative m q hm) := hrep
    show shapeOfParts (stored (.finite .negative m q hm)) = _
    rw [hrep'.stored_eq]
    rfl

/-- The shortest decimal of a finite double is read as the double. -/
theorem nearest_shortest {x : Float} {negative : Bool} {m : ℕ} {q : ℤ}
    (hx : shape x = .finite negative m q) :
    (Numeral.ofDecimal negative (shortest m q)).nearest = x := by
  have hy := shape_ofScientific_shortest hx
  refine eq_of_shape ?_ hx
  cases negative with
  | false => exact hy
  | true => exact shape_neg hy

/-- A finite double has a numeral, which is read as the double. -/
theorem double?_numeral? {x : Float} (h : Arithmetic.isFinite x = true) :
    ∃ n, numeral? x = some n ∧ n.double? = some x := by
  obtain ⟨negative, m, q, hshape⟩ := isFinite_iff_shape.1 h
  refine ⟨.ofDecimal negative (shortest m q), ?_, ?_⟩
  · rw [numeral?, hshape]
  · rw [Numeral.double?, nearest_shortest hshape]
    exact if_pos h

end Joinery.Double
