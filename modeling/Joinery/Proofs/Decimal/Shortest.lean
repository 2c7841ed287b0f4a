import Mathlib
import Joinery.Decimal.Shortest
import Joinery.Proofs.Decimal.Nearest
/-!
# The shortest decimal rounds to its double

The shortest decimal is looked for between the halfway points to the neighbours of a double.
Wherever it is found there, it rounds to the double.
-/

namespace Joinery

/-- The number that a decimal stands for. -/
def Decimal.value (d : Decimal) : ℚ := d.digits * 10 ^ d.exponent

theorem Decimal.value_trim (d : Decimal) : d.trim.value = d.value := by
  fun_induction trim d with
  | case1 d h ih =>
    rw [ih, value, value]
    have hdigits : (d.digits : ℚ) = 10 * (d.digits / 10 : ℕ) := by
      exact_mod_cast (by omega : d.digits = 10 * (d.digits / 10))
    rw [hdigits, zpow_add_one₀ (by norm_num)]
    dsimp only
    ring
  | case2 d h hzero => simp [value, hzero]
  | case3 => rfl

namespace Double

theorem value_exact (m : ℕ) (q : ℤ) : (exact m q).value = m * 2 ^ q := by
  unfold exact
  split
  case isTrue hq =>
    have htwo : (2 : ℚ) ^ q = 2 ^ q.toNat := by
      conv_lhs => rw [← Int.toNat_of_nonneg hq, zpow_natCast]
    rw [Decimal.value, htwo]
    push_cast
    simp
  case isFalse hq =>
    have hfive : ((5 : ℚ) ^ (-q).toNat) * 5 ^ q = 1 := by
      rw [← zpow_natCast, Int.toNat_of_nonneg (by omega), ← zpow_add₀ (by norm_num),
        neg_add_cancel, zpow_zero]
    rw [Decimal.value, Nat.pow_eq, show (10 : ℚ) = 5 * 2 by norm_num, mul_zpow]
    push_cast
    rw [mul_assoc, ← mul_assoc (5 ^ _), hfive, one_mul]

variable {m : ℕ} {q : ℤ} {x : ℕ}

theorem unit_interval (m : ℕ) (q : ℤ) :
    ((exact 1 (q - 2)).digits : ℚ) * 10 ^ (interval m q).exponent = 2 ^ (q - 2) := by
  have hunit := value_exact 1 (q - 2)
  rwa [Nat.cast_one, one_mul] at hunit

/-- What an interval contains rounds to the double in its middle. -/
theorem roundsTo_of_contains (h : (interval m q).contains x = true) :
    RoundsTo m q (x * 10 ^ (interval m q).exponent) := by
  have hten : (0 : ℚ) < 10 ^ (interval m q).exponent := by positivity
  have hlow : ((interval m q).low : ℚ) * 10 ^ (interval m q).exponent =
      lowQuarters m q * 2 ^ (q - 2) := by
    rw [← unit_interval m q, ← mul_assoc, ← Nat.cast_mul]
    rfl
  have hhigh : ((interval m q).high : ℚ) * 10 ^ (interval m q).exponent =
      (4 * m + 2) * 2 ^ (q - 2) := by
    rw [← unit_interval m q, ← mul_assoc]
    have : (interval m q).high = (4 * m + 2) * (exact 1 (q - 2)).digits := rfl
    rw [this]
    push_cast
    rfl
  have hclosed : (interval m q).closed = decide (m % 2 = 0) := rfl
  unfold Interval.contains at h
  rw [hclosed] at h
  split at h
  case isTrue heven =>
    obtain ⟨hle, hle'⟩ := of_decide_eq_true h
    refine ⟨?_, ?_, fun hodd => ?_⟩
    · rw [← hlow]
      exact mul_le_mul_of_nonneg_right (by exact_mod_cast hle) hten.le
    · rw [← hhigh]
      exact mul_le_mul_of_nonneg_right (by exact_mod_cast hle') hten.le
    · have := of_decide_eq_true heven
      omega
  case isFalse =>
    obtain ⟨hlt, hlt'⟩ := of_decide_eq_true h
    have hbelow : lowQuarters m q * 2 ^ (q - 2) < (x * 10 ^ (interval m q).exponent : ℚ) := by
      rw [← hlow]
      exact mul_lt_mul_of_pos_right (by exact_mod_cast hlt) hten
    have habove : (x * 10 ^ (interval m q).exponent : ℚ) < (4 * m + 2) * 2 ^ (q - 2) := by
      rw [← hhigh]
      exact mul_lt_mul_of_pos_right (by exact_mod_cast hlt') hten
    exact ⟨hbelow.le, habove.le, fun _ => ⟨hbelow, habove⟩⟩

theorem contains_middle (hm : 0 < m) (q : ℤ) :
    (interval m q).contains (interval m q).middle = true := by
  have hunit : 0 < (exact 1 (q - 2)).digits := by
    unfold exact
    split <;> simp
  have hlow : (interval m q).low < (interval m q).middle := by
    refine Nat.mul_lt_mul_of_pos_right ?_ hunit
    split <;> omega
  have hhigh : (interval m q).middle < (interval m q).high :=
    Nat.mul_lt_mul_of_pos_right (by omega) hunit
  unfold Interval.contains
  split
  · exact decide_eq_true ⟨hlow.le, hhigh.le⟩
  · exact decide_eq_true ⟨hlow, hhigh⟩

theorem contains_of_onGrid? {i : Interval} {step : ℕ} (h : i.onGrid? step = some x) :
    i.contains x = true := by
  unfold Interval.onGrid? at h
  extract_lets down up at h
  split at h
  case h_1 hdown hup =>
    rw [← Option.some_inj.1 h]
    split
    · exact hdown
    · exact hup
  case h_2 hdown _ =>
    rwa [← Option.some_inj.1 h]
  case h_3 _ hup =>
    rwa [← Option.some_inj.1 h]
  case h_4 => cases h

/-- The shortest decimal rounds to its double. -/
theorem roundsTo_shortest (hm : 0 < m) (q : ℤ) : RoundsTo m q (shortest m q).value := by
  unfold shortest
  dsimp only
  rw [Decimal.value_trim]
  refine roundsTo_of_contains ?_
  cases hfound : (List.range 17).findSome? fun n =>
      (interval m q).onGrid? (Nat.pow 10 (Decimal.digitCount (interval m q).middle - (n + 1))) with
  | none => exact contains_middle hm q
  | some x =>
    obtain ⟨n, -, hn⟩ := List.exists_of_findSome?_eq_some hfound
    exact contains_of_onGrid? hn

end Double

end Joinery
