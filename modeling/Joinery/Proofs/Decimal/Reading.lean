import Mathlib
import Joinery.Json.Numeral
import Joinery.Proofs.Decimal.Nearest
/-!
# Reading decimals

A decimal is read in one of two ways. Few digits and a small power of ten are doubles
themselves, and one operation makes the result of them. All others are put together exactly,
as a product or a quotient of whole numbers. Both round once, so both read a decimal as the
double that it rounds to.
-/

namespace Joinery.Double

open Float.Model (UnpackedFloat Format)
open Float.Model.UnpackedFloat

/-! ## Products and quotients -/

/-- Nothing is lost of a mantissa that is long enough, but what is rounded. -/
theorem le_target_of_le {m : ℕ} (hm : 2 ^ 52 ≤ m) (e : ℤ) : e ≤ target m e := by
  have := (Nat.le_log2 (by omega)).2 hm
  unfold target
  omega

/-- A quotient is long enough if its digits start where its parts say. -/
theorem le_quotient {m₁ m₂ shift : ℕ} (h₁ : 0 < m₁) (h₂ : 0 < m₂)
    (hshift : 53 + m₂.log2 ≤ m₁.log2 + shift) : 2 ^ 52 ≤ (m₁ <<< shift) / m₂ := by
  rw [Nat.le_div_iff_mul_le h₂, Nat.shiftLeft_eq]
  calc 2 ^ 52 * m₂ ≤ 2 ^ 52 * 2 ^ (m₂.log2 + 1) :=
        Nat.mul_le_mul_left _ Nat.lt_log2_self.le
    _ = 2 ^ (53 + m₂.log2) := by rw [← Nat.pow_add]; congr 1; omega
    _ ≤ 2 ^ (m₁.log2 + shift) := Nat.pow_le_pow_right two_pos hshift
    _ = 2 ^ m₁.log2 * 2 ^ shift := Nat.pow_add _ _ _
    _ ≤ m₁ * 2 ^ shift := Nat.mul_le_mul_right _ (Nat.log2_self_le h₁.ne')

section Operations

variable {M : ℕ} {Q : ℤ} {hM : 0 < M} (hrep : Representable (.finite .positive M Q hM))
  {m₁ m₂ : ℕ} {e₁ e₂ : ℤ} (h₁ : 0 < m₁) (h₂ : 0 < m₂)
include hrep

theorem mul_of_roundsTo (hlarge : 2 ^ 52 ≤ m₁ * m₂)
    (hv : RoundsTo M Q (m₁ * 2 ^ e₁ * (m₂ * 2 ^ e₂))) :
    mul format (.finite .positive m₁ e₁ h₁) (.finite .positive m₂ e₂ h₂) =
      .finite .positive M Q hM := by
  refine roundWithAccuracy_of_roundsTo hrep (covers_exact _) (le_target_of_le hlarge _) ?_
  rw [zpow_add₀ two_ne_zero, Nat.cast_mul, mul_mul_mul_comm]
  exact hv

theorem div_of_roundsTo (hv : RoundsTo M Q (m₁ * 2 ^ e₁ / (m₂ * 2 ^ e₂))) :
    div format (.finite .positive m₁ e₁ h₁) (.finite .positive m₂ e₂ h₂) =
      .finite .positive M Q hM := by
  let T := min (e₁ - e₂) (max ((m₁.log2 + 1 + e₁) - (m₂.log2 + 1 + e₂) - 53) (-1074))
  let shift := (e₁ - e₂ - T).toNat
  have hshift : e₁ = shift + T + e₂ := by omega
  show roundWithAccuracy format .positive ((m₁ <<< shift) / m₂) T
    (accuracyOfFraction ((m₁ <<< shift) % m₂) m₂) = _
  refine roundWithAccuracy_of_roundsTo hrep (covers_quotient _ h₂) ?_ ?_
  · by_cases hleast : T ≤ -1074
    · exact hleast.trans (le_max_right _ _)
    · exact le_target_of_le (le_quotient h₁ h₂ (by omega)) _
  · have hvalue : (m₁ * 2 ^ e₁ / (m₂ * 2 ^ e₂) : ℚ) = (m₁ <<< shift : ℕ) / m₂ * 2 ^ T := by
      rw [hshift, zpow_add₀ two_ne_zero, zpow_add₀ two_ne_zero, zpow_natCast, Nat.shiftLeft_eq]
      push_cast
      field_simp
    rw [← hvalue]
    exact hv

end Operations

/-! ## Whole numbers and powers of ten -/

theorem roundsTo_self {m : ℕ} (q : ℤ) (hm : 0 < m) : RoundsTo m q (m * 2 ^ q) := by
  have hunit : (0 : ℚ) < 2 ^ (q - 2) := zpow_pos two_pos _
  have hquarters : (lowQuarters m q : ℚ) < 4 * m := by
    have : lowQuarters m q < 4 * m := by
      unfold lowQuarters
      split <;> omega
    exact_mod_cast this
  have hlow := mul_lt_mul_of_pos_right hquarters hunit
  have hhigh : (m * (4 * 2 ^ (q - 2)) : ℚ) < (4 * m + 2) * 2 ^ (q - 2) := by linarith
  rw [two_zpow_eq q]
  exact ⟨by linarith, hhigh.le, fun _ => ⟨by linarith, hhigh⟩⟩

/-- A double that stands for a number, with a mantissa of full length. -/
def StandsFor (u : UnpackedFloat) (v : ℚ) : Prop :=
  ∃ m e hm, u = .finite .positive m e hm ∧ 2 ^ 52 ≤ m ∧ m * 2 ^ e = v

theorem standsFor_toFloat {n : ℕ} (hn : 0 < n) (hlt : n < 2 ^ 53) :
    StandsFor (parts n.toUInt64.toFloat) n := by
  have hlog : n.log2 < 53 := (Nat.log2_lt hn.ne').2 hlt
  let shift := 52 - n.log2
  have hlow : 2 ^ 52 ≤ n <<< shift := by
    rw [Nat.shiftLeft_eq]
    calc 2 ^ 52 = 2 ^ n.log2 * 2 ^ shift := by rw [← Nat.pow_add]; congr 1; omega
      _ ≤ n * 2 ^ shift := Nat.mul_le_mul_right _ (Nat.log2_self_le hn.ne')
  have hhigh : n <<< shift < 2 ^ 53 := by
    rw [Nat.shiftLeft_eq]
    calc n * 2 ^ shift < 2 ^ (n.log2 + 1) * 2 ^ shift :=
          Nat.mul_lt_mul_of_pos_right Nat.lt_log2_self (Nat.two_pow_pos _)
      _ = 2 ^ 53 := by rw [← Nat.pow_add]; congr 1; omega
  have hpos : 0 < n <<< shift := by omega
  have hrep : Representable (.finite .positive (n <<< shift) (-shift) hpos) :=
    ⟨hhigh, by omega, by omega, .inl hlow⟩
  have hround : roundWithAccuracy format .positive (n <<< shift) (-shift) .exact =
      .finite .positive (n <<< shift) (-shift) hpos :=
    roundWithAccuracy_of_roundsTo hrep (covers_exact _) (le_target_of_le hlow _)
      (roundsTo_self _ hpos)
  have hparts : parts n.toUInt64.toFloat = .finite .positive (n <<< shift) (-shift) hpos := by
    have hnat : n.toUInt64.toNat = n := UInt64.toNat_ofNat_of_lt (hlt.trans (by decide))
    have hnormal : parts n.toUInt64.toFloat =
      stored (normalize format (n.toUInt64.toNat : ℤ) 0 .positive) := rfl
    have hgt : compare (n : ℤ) 0 = .gt := compare_gt_iff_gt.2 (by exact_mod_cast hn)
    have hshift : (0 - max ((n.log2 : ℤ) + 1 + 0 - 53) (-1074)).toNat = shift := by omega
    rw [hnormal, hnat, Float.Model.UnpackedFloat.normalize, hgt]
    show stored (roundWithAccuracy format .positive
      (n <<< (0 - max ((n.log2 : ℤ) + 1 + 0 - 53) (-1074)).toNat)
      (0 - ((0 - max ((n.log2 : ℤ) + 1 + 0 - 53) (-1074)).toNat : ℤ)) .exact) = _
    rw [hshift, zero_sub, hround]
    exact hrep.stored_eq
  refine ⟨_, _, hpos, hparts, hlow, ?_⟩
  rw [Nat.shiftLeft_eq, zpow_neg, zpow_natCast]
  push_cast
  field_simp

/-- Whether a result is a double of full length with the value of a whole number. -/
def isWhole (n : ℕ) : UnpackedFloat → Bool
  | .finite .positive m e _ => 2 ^ 52 ≤ m ∧ -52 ≤ e ∧ m * 2 ^ (e + 52).toNat = n * 2 ^ 52
  | _ => false

/-- The powers of ten in the table are exact. -/
theorem isWhole_powerOfTen : ∀ e : Fin Float.exactlyRepresentablePowersOfTen.size,
    isWhole (10 ^ e.val) (parts Float.exactlyRepresentablePowersOfTen[e]) = true := by
  decide +kernel

theorem standsFor_of_isWhole {n : ℕ} {u : UnpackedFloat} (h : isWhole n u = true) :
    StandsFor u n := by
  unfold isWhole at h
  split at h
  case h_2 => cases h
  case h_1 m e hm =>
    obtain ⟨hlow, he, hvalue⟩ := of_decide_eq_true h
    refine ⟨m, e, hm, rfl, hlow, ?_⟩
    have hvalue' : (m * 2 ^ (e + 52).toNat : ℚ) = n * 2 ^ 52 := by exact_mod_cast hvalue
    rw [← zpow_natCast, Int.toNat_of_nonneg (by omega), zpow_add₀ two_ne_zero] at hvalue'
    norm_num at hvalue'
    linarith

section Operations

variable {M : ℕ} {Q : ℤ} {hM : 0 < M} (hrep : Representable (.finite .positive M Q hM))
  {x y : Float} {a b : ℚ} (hx : StandsFor (parts x) a) (hy : StandsFor (parts y) b)
include hrep hx hy

theorem parts_mul_of_standsFor (hv : RoundsTo M Q (a * b)) :
    parts (x * y) = .finite .positive M Q hM := by
  obtain ⟨m₁, e₁, h₁, hx, hlarge, rfl⟩ := hx
  obtain ⟨m₂, e₂, h₂, hy, -, rfl⟩ := hy
  have hlarge' : 2 ^ 52 ≤ m₁ * m₂ := hlarge.trans (Nat.le_mul_of_pos_right _ h₂)
  rw [parts_mul, hx, hy, mul_of_roundsTo hrep h₁ h₂ hlarge' hv, hrep.stored_eq]

theorem parts_div_of_standsFor (hv : RoundsTo M Q (a / b)) :
    parts (x / y) = .finite .positive M Q hM := by
  obtain ⟨m₁, e₁, h₁, hx, -, rfl⟩ := hx
  obtain ⟨m₂, e₂, h₂, hy, -, rfl⟩ := hy
  rw [parts_div, hx, hy, div_of_roundsTo hrep h₁ h₂ hv, hrep.stored_eq]

end Operations

/-! ## Numerals -/

theorem ten_zpow_of_nonneg {exponent : ℤ} (h : 0 ≤ exponent) :
    (10 : ℚ) ^ exponent = (10 ^ exponent.natAbs : ℕ) := by
  conv_lhs => rw [← Int.natAbs_of_nonneg h, zpow_natCast]
  push_cast
  rfl

theorem ten_zpow_of_neg {exponent : ℤ} (h : exponent < 0) :
    (10 : ℚ) ^ exponent = ((10 ^ exponent.natAbs : ℕ) : ℚ)⁻¹ := by
  have hneg : (10 : ℚ) ^ (-exponent) = (10 ^ (-exponent).natAbs : ℕ) :=
    ten_zpow_of_nonneg (by omega)
  rw [Int.natAbs_neg, zpow_neg] at hneg
  rw [← hneg, inv_inv]

section Numerals

variable {M : ℕ} {Q : ℤ} {hM : 0 < M} (hrep : Representable (.finite .positive M Q hM))
  {digits : ℕ} {exponent : ℤ} (hdigits : 0 < digits)
  (hv : RoundsTo M Q (digits * 10 ^ exponent))
include hrep hdigits hv

omit hdigits in
/-- What rounds to a double is neither too large nor too small to be one. -/
theorem bounds_of_roundsTo :
    2 ^ (-1075 : ℤ) ≤ (digits * 10 ^ exponent : ℚ) ∧
      (digits * 10 ^ exponent : ℚ) ≤ 2 ^ (1024 : ℤ) := by
  obtain ⟨hlt, hQ, hQ', -⟩ := hrep
  have hunit : (0 : ℚ) < 2 ^ (Q - 2) := zpow_pos two_pos _
  constructor
  · have hM' : (1 : ℚ) ≤ M := by exact_mod_cast hM
    have htwo : (2 : ℚ) ≤ lowQuarters M Q := by linarith [le_lowQuarters M Q]
    calc (2 : ℚ) ^ (-1075 : ℤ) = 2 * 2 ^ (-1076 : ℤ) := zpow_one_add₀ two_ne_zero (-1076)
      _ ≤ lowQuarters M Q * 2 ^ (Q - 2) :=
        mul_le_mul htwo (zpow_le_zpow_right₀ one_le_two (by omega)) (by positivity) (by linarith)
      _ ≤ digits * 10 ^ exponent := hv.low
  · have hM' : (M : ℚ) + 1 ≤ 2 ^ 53 := by exact_mod_cast hlt
    calc (digits * 10 ^ exponent : ℚ) ≤ (4 * M + 2) * 2 ^ (Q - 2) := hv.high
      _ ≤ 2 ^ 55 * 2 ^ (969 : ℤ) :=
        mul_le_mul (by linarith) (zpow_le_zpow_right₀ one_le_two (by omega)) hunit.le (by norm_num)
      _ = 2 ^ (1024 : ℤ) := by rw [← zpow_ofNat 2 55, ← zpow_add₀ two_ne_zero]; rfl

/-- So its power of ten is one that is looked at. -/
theorem exponent_bounds : exponent ≤ 2 ^ 11 ∧ -(2 ^ 11 + (digits.log2 : ℤ)) ≤ exponent := by
  obtain ⟨hlow, hhigh⟩ := bounds_of_roundsTo hrep hv
  constructor
  · by_contra hlarge
    have hone : (1 : ℚ) ≤ digits := by exact_mod_cast hdigits
    have hlt : (2 : ℚ) ^ (1024 : ℤ) < digits * 10 ^ exponent := calc
      (2 : ℚ) ^ (1024 : ℤ) < 2 ^ exponent := zpow_lt_zpow_right₀ one_lt_two (by omega)
      _ ≤ 10 ^ exponent := zpow_le_zpow_left₀ (by omega) (by norm_num) (by norm_num)
      _ ≤ digits * 10 ^ exponent := le_mul_of_one_le_left (by positivity) hone
    exact absurd hhigh (not_le.2 hlt)
  · by_contra hsmall
    have hdigits' : (digits : ℚ) ≤ 2 ^ ((digits.log2 : ℤ) + 1) := by
      exact_mod_cast (@Nat.lt_log2_self digits).le
    have hpowers : (2 : ℚ) ^ (-exponent) ≤ 10 ^ (-exponent) :=
      zpow_le_zpow_left₀ (by omega) (by norm_num) (by norm_num)
    have hten : (10 : ℚ) ^ exponent ≤ 2 ^ exponent := by
      have hinv := inv_anti₀ (by positivity) hpowers
      rwa [zpow_neg, zpow_neg, inv_inv, inv_inv] at hinv
    have hlt : (digits * 10 ^ exponent : ℚ) < 2 ^ (-1075 : ℤ) := calc
      (digits * 10 ^ exponent : ℚ) ≤ 2 ^ ((digits.log2 : ℤ) + 1) * 2 ^ exponent :=
        mul_le_mul hdigits' hten (by positivity) (by positivity)
      _ = 2 ^ ((digits.log2 : ℤ) + 1 + exponent) := (zpow_add₀ two_ne_zero _ _).symm
      _ < 2 ^ (-1075 : ℤ) := zpow_lt_zpow_right₀ one_lt_two (by omega)
    exact absurd hlow (not_le.2 hlt)

theorem ofScientific_of_roundsTo :
    Float.Model.UnpackedFloat.ofScientific format digits exponent = .finite .positive M Q hM := by
  obtain ⟨hhigh, hlow⟩ := exponent_bounds hrep hdigits hv
  unfold Float.Model.UnpackedFloat.ofScientific
  rw [dif_neg hdigits.ne', if_neg (not_lt.2 hhigh), if_neg (not_lt.2 hlow)]
  split
  case isTrue hpos =>
    have hbits : format.mantissaBits = 53 := rfl
    refine mul_of_roundsTo hrep _ _ ?_ ?_
    · rw [hbits, Nat.shiftLeft_eq]
      have hten : 1 ≤ 10 ^ exponent.toNat := Nat.one_le_pow _ _ (by decide)
      nlinarith
    · have hshifted : ((digits <<< 53 : ℕ) * 2 ^ (-(53 : ℕ) : ℤ) : ℚ) = digits := by
        rw [Nat.shiftLeft_eq, zpow_neg, zpow_natCast, Nat.cast_mul, Nat.cast_pow]
        exact mul_inv_cancel_right₀ (by positivity) _
      have hpower : exponent.toNat = exponent.natAbs := by omega
      rw [hbits, hshifted, zpow_zero, mul_one, hpower, ← ten_zpow_of_nonneg hpos]
      exact hv
  case isFalse hneg =>
    refine div_of_roundsTo hrep _ _ ?_
    have hpower : (-exponent).toNat = exponent.natAbs := by omega
    rw [zpow_zero, mul_one, mul_one, hpower, div_eq_mul_inv, ← ten_zpow_of_neg (not_le.1 hneg)]
    exact hv

theorem parts_ofScientific :
    parts (Float.ofScientific digits (exponent < 0) exponent.natAbs) = .finite .positive M Q hM := by
  unfold Float.ofScientific
  split
  case isTrue hsmall =>
    have hwhole := standsFor_toFloat hdigits hsmall.1
    have hpower := standsFor_of_isWhole (isWhole_powerOfTen ⟨_, Nat.lt_succ_of_le hsmall.2⟩)
    dsimp only
    split
    case isTrue hneg =>
      refine parts_div_of_standsFor hrep hwhole hpower ?_
      rwa [div_eq_mul_inv, ← ten_zpow_of_neg (of_decide_eq_true hneg)]
    case isFalse hneg =>
      refine parts_mul_of_standsFor hrep hwhole hpower ?_
      rwa [← ten_zpow_of_nonneg (by simpa using hneg)]
  case isFalse =>
    have hexponent : (if decide (exponent < 0) = true then Int.negOfNat exponent.natAbs
        else Int.ofNat exponent.natAbs) = exponent := by
      split
      case isTrue hneg =>
        rw [Int.negOfNat_eq, Int.ofNat_eq_natCast]
        have := of_decide_eq_true hneg
        omega
      case isFalse hneg =>
        rw [Int.ofNat_eq_natCast]
        have : ¬exponent < 0 := by simpa using hneg
        omega
    rw [hexponent]
    show stored (Float.Model.UnpackedFloat.ofScientific format digits exponent) = _
    rw [ofScientific_of_roundsTo hrep hdigits hv, hrep.stored_eq]

end Numerals

end Joinery.Double
