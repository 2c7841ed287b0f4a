import Mathlib
import Joinery.Decimal.Shortest
import Joinery.Proofs.Scalar.Double
/-!
# Rounding to the nearest double

A number is rounded from a long mantissa by cutting bits off its end: of these, one bit and
whether anything stood below it are kept. That is enough to tell on which side of a half the
number lies. So every number that is nearer to a double than to its neighbours is rounded to
it.
-/

namespace Joinery.Double

open Float.Model (UnpackedFloat Format)
open Float.Model.UnpackedFloat

/-! ## Mantissas with two more bits -/

/-- Whether a mantissa and the two bits that follow it stand for a number: the first says
whether there is half a unit, the second whether there is anything beyond that. -/
def Covers (em : ExtendedMantissa) (x : ℚ) : Prop :=
  ∃ rest : ℚ, x = em.mantissa + (if em.roundBit then 1 / 2 else 0) + rest ∧
    0 ≤ rest ∧ rest < 1 / 2 ∧ (em.stickyBit = true ↔ 0 < rest)

/-- Whether a whole number is the one that a number is rounded to: no other is nearer, and
the even one of two that are equally near. -/
def Near (n : ℕ) (x : ℚ) : Prop :=
  (n : ℚ) - 1 / 2 ≤ x ∧ x ≤ n + 1 / 2 ∧ (n % 2 = 1 → (n : ℚ) - 1 / 2 < x ∧ x < n + 1 / 2)

section Covers

variable {em : ExtendedMantissa} {x : ℚ} {n : ℕ}

theorem Covers.floor (h : Covers em x) : em.mantissa ≤ x ∧ x < em.mantissa + 1 := by
  obtain ⟨rest, rfl, hrest, hrest', -⟩ := h
  split <;> constructor <;> linarith

theorem Covers.shiftRightOne (h : Covers em x) : Covers em.shiftRightOne (x / 2) := by
  obtain ⟨m, r, s⟩ := em
  obtain ⟨rest, rfl, hrest, hrest', hs⟩ := h
  have hm : (m : ℚ) = 2 * (m / 2 : ℕ) + (m % 2 : ℕ) := by exact_mod_cast (Nat.div_add_mod m 2).symm
  refine ⟨(if r then 1 / 4 else 0) + rest / 2, ?_, ?_, ?_, ?_⟩
  · rcases Nat.mod_two_eq_zero_or_one m with hbit | hbit <;> rw [hbit] at hm <;>
      cases r <;> simp [ExtendedMantissa.shiftRightOne, hbit] at hm ⊢ <;> linarith
  · cases r <;> simp <;> linarith
  · cases r <;> simp <;> linarith
  · cases r <;> simp [ExtendedMantissa.shiftRightOne] at hs ⊢
    · exact hs
    · linarith

theorem Covers.shiftRight (h : Covers em x) (k : ℕ) : Covers (em >>> k) (x / 2 ^ k) := by
  induction k with
  | zero => simpa [HShiftRight.hShiftRight, Nat.repeat] using h
  | succ k ih =>
    rw [pow_succ, ← div_div]
    exact ih.shiftRightOne

/-- Rounding picks the nearest whole number. -/
theorem Covers.roundedMantissa_eq (h : Covers em x) (hn : Near n x) : em.roundedMantissa = n := by
  obtain ⟨m, r, s⟩ := em
  obtain ⟨rest, rfl, hrest, hrest', hs⟩ := h
  obtain ⟨hlow, hhigh, hodd⟩ := hn
  cases r <;> cases s <;> simp at hs hlow hhigh hodd
  case false.false =>
    have h₁ : (2 * n : ℚ) ≤ 2 * m + 1 := by linarith
    have h₂ : (2 * m : ℚ) ≤ 2 * n + 1 := by linarith
    norm_cast at h₁ h₂
    show m = n
    omega
  case false.true =>
    have h₁ : (2 * n : ℚ) < 2 * m + 2 := by linarith
    have h₂ : (2 * m : ℚ) < 2 * n + 1 := by linarith
    norm_cast at h₁ h₂
    show m = n
    omega
  case true.false =>
    have h₁ : (2 * n : ℚ) ≤ 2 * m + 2 := by linarith
    have h₂ : (2 * m : ℚ) ≤ 2 * n := by linarith
    norm_cast at h₁ h₂
    show m + m % 2 = n
    have h₃ : n % 2 = 1 → 2 * n < 2 * m + 2 ∧ 2 * m < 2 * n := by
      intro hn
      obtain ⟨h, h'⟩ := hodd hn
      constructor
      · exact_mod_cast (by linarith : (2 * n : ℚ) < 2 * m + 2)
      · exact_mod_cast (by linarith : (2 * m : ℚ) < 2 * n)
    omega
  case true.true =>
    have h₁ : (2 * n : ℚ) < 2 * m + 3 := by linarith
    have h₂ : (2 * m : ℚ) < 2 * n := by linarith
    norm_cast at h₁ h₂
    show m + 1 = n
    omega

@[simp]
theorem mantissa_ofMantissaAndAccuracy (m : ℕ) (a : Accuracy) :
    (ExtendedMantissa.ofMantissaAndAccuracy m a).mantissa = m := by
  rcases a with _ | _ | _ | _ <;> rfl

/-- A whole number covers itself. -/
theorem covers_exact (m : ℕ) : Covers (.ofMantissaAndAccuracy m .exact) m :=
  ⟨0, by simp [ExtendedMantissa.ofMantissaAndAccuracy], le_refl _, by norm_num,
    by simp [ExtendedMantissa.ofMantissaAndAccuracy]⟩

/-- A quotient is covered by its whole part and what the remainder says. -/
theorem covers_quotient (num : ℕ) {den : ℕ} (hden : 0 < den) :
    Covers (.ofMantissaAndAccuracy (num / den) (accuracyOfFraction (num % den) den))
      (num / den) := by
  have hden' : (0 : ℚ) < den := Nat.cast_pos.2 hden
  have hnum : (num / den : ℚ) = (num / den : ℕ) + (num % den : ℕ) / den := by
    rw [eq_comm, ← sub_eq_zero]
    field_simp
    have : (num : ℚ) = den * (num / den : ℕ) + (num % den : ℕ) := by
      exact_mod_cast (Nat.div_add_mod num den).symm
    linarith
  have hlt := Nat.mod_lt num hden
  rw [hnum]
  generalize num / den = q
  generalize num % den = r at hlt ⊢
  have hlt' : (r : ℚ) / den < 1 := (div_lt_one hden').2 (Nat.cast_lt.2 hlt)
  unfold accuracyOfFraction
  rcases Nat.eq_zero_or_pos r with rfl | hr
  · simpa using covers_exact q
  · have hpos : (0 : ℚ) < r / den := div_pos (Nat.cast_pos.2 hr) hden'
    rw [if_neg hr.ne']
    rcases lt_trichotomy (2 * r) den with hhalf | hhalf | hhalf
    · have hhalf' : (r : ℚ) / den < 1 / 2 := by
        rw [div_lt_div_iff₀ hden' two_pos]
        exact_mod_cast (by omega : r * 2 < 1 * den)
      rw [compare_lt_iff_lt.2 hhalf]
      exact ⟨r / den, by simp [ExtendedMantissa.ofMantissaAndAccuracy], hpos.le, hhalf',
        by simpa [ExtendedMantissa.ofMantissaAndAccuracy] using hpos⟩
    · have hhalf' : (r : ℚ) / den = 1 / 2 := by
        rw [div_eq_div_iff hden'.ne' two_ne_zero]
        exact_mod_cast (by omega : r * 2 = 1 * den)
      rw [compare_eq_iff_eq.2 hhalf, hhalf']
      exact ⟨0, by simp [ExtendedMantissa.ofMantissaAndAccuracy], le_refl _, by norm_num,
        by simp [ExtendedMantissa.ofMantissaAndAccuracy]⟩
    · have hhalf' : 1 / 2 < (r : ℚ) / den := by
        rw [div_lt_div_iff₀ two_pos hden']
        exact_mod_cast (by omega : 1 * den < r * 2)
      rw [compare_gt_iff_gt.2 hhalf]
      exact ⟨r / den - 1 / 2, by simp [ExtendedMantissa.ofMantissaAndAccuracy], by linarith,
        by linarith, by simpa [ExtendedMantissa.ofMantissaAndAccuracy] using hhalf'⟩

end Covers

/-! ## Numbers that round to a double -/

/-- The lower end of what rounds to `m · 2 ^ q`, in quarters of the last place: below a power
of two the neighbour is only half as far. -/
def lowQuarters (m : ℕ) (q : ℤ) : ℕ :=
  if m = implicitBit ∧ -1074 < q then 4 * m - 1 else 4 * m - 2

/-- Whether a number is at most halfway from the double `m · 2 ^ q` to its neighbours, and
not all the way there if the mantissa is odd. -/
structure RoundsTo (m : ℕ) (q : ℤ) (v : ℚ) : Prop where
  low : lowQuarters m q * 2 ^ (q - 2) ≤ v
  high : v ≤ (4 * m + 2) * 2 ^ (q - 2)
  odd : m % 2 = 1 → lowQuarters m q * 2 ^ (q - 2) < v ∧ v < (4 * m + 2) * 2 ^ (q - 2)

section Target

variable {m : ℕ} {e : ℤ} {x : ℚ}

theorem log_eq {v : ℚ} {l : ℤ} (hlow : 2 ^ l ≤ v) (hhigh : v < 2 ^ (l + 1)) : Int.log 2 v = l := by
  have hpos : 0 < v := (zpow_pos two_pos l).trans_le hlow
  have hle : l ≤ Int.log 2 v := (Int.zpow_le_iff_le_log one_lt_two hpos).1 (by exact_mod_cast hlow)
  have hlt : Int.log 2 v < l + 1 :=
    (Int.lt_zpow_iff_log_lt one_lt_two hpos).1 (by exact_mod_cast hhigh)
  omega

/-- The exponent that a number is brought to hangs on its size only. -/
theorem target_eq_log (hlow : (m : ℚ) ≤ x) (hhigh : x < m + 1) (hpos : 0 < x)
    (he : e ≤ target m e) : target m e = max (Int.log 2 (x * 2 ^ e) - 52) (-1074) := by
  have htwo : (0 : ℚ) < 2 ^ e := zpow_pos two_pos e
  unfold target at he ⊢
  rcases Nat.eq_zero_or_pos m with rfl | hm
  · have hlt : Int.log 2 (x * 2 ^ e) < e := by
      refine (Int.lt_zpow_iff_log_lt one_lt_two (mul_pos hpos htwo)).1 ?_
      have hone : x < 1 := by simpa using hhigh
      exact_mod_cast mul_lt_of_lt_one_left htwo hone
    have hzero : Nat.log2 0 = 0 := rfl
    rw [hzero] at he ⊢
    omega
  · have hself : ((2 : ℚ) ^ (m.log2 : ℤ)) ≤ m := by exact_mod_cast Nat.log2_self_le hm.ne'
    have hnext : (m : ℚ) + 1 ≤ (2 : ℚ) ^ ((m.log2 : ℤ) + 1) := by
      exact_mod_cast Nat.succ_le_of_lt (@Nat.lt_log2_self m)
    have hlog : Int.log 2 (x * 2 ^ e) = m.log2 + e := by
      refine log_eq ?_ ?_
      · rw [zpow_add₀ two_ne_zero]
        exact mul_le_mul_of_nonneg_right (hself.trans hlow) htwo.le
      · rw [add_right_comm, zpow_add₀ two_ne_zero]
        exact mul_lt_mul_of_pos_right (hhigh.trans_le hnext) htwo
    rw [hlog]
    omega

theorem shifted_eq (he : e ≤ target m e) (x : ℚ) :
    x / 2 ^ surplus m e = x * 2 ^ e / 2 ^ target m e := by
  have htarget : target m e = e + surplus m e := by
    unfold surplus
    omega
  rw [htarget, zpow_add₀ two_ne_zero, zpow_natCast, mul_comm x, mul_div_mul_left]
  exact (zpow_pos two_pos e).ne'

end Target

section RoundsTo

variable {m : ℕ} {q : ℤ} {v : ℚ}

theorem le_lowQuarters (m : ℕ) (q : ℤ) : (4 * m - 2 : ℚ) ≤ lowQuarters m q := by
  have hle : 4 * m ≤ lowQuarters m q + 2 := by
    unfold lowQuarters
    split <;> omega
  have : (4 * m : ℚ) ≤ lowQuarters m q + 2 := by exact_mod_cast hle
  linarith

theorem two_zpow_eq (q : ℤ) : (2 : ℚ) ^ q = 4 * 2 ^ (q - 2) := by
  rw [show q = q - 2 + 2 by omega, zpow_add₀ two_ne_zero, show q - 2 + 2 - 2 = q - 2 by omega]
  ring

theorem RoundsTo.pos (h : RoundsTo m q v) (hm : 0 < m) : 0 < v := by
  have hunit : (0 : ℚ) < 2 ^ (q - 2) := zpow_pos two_pos _
  have hone : (1 : ℚ) ≤ m := by exact_mod_cast hm
  have hquarters : (0 : ℚ) < lowQuarters m q := by linarith [le_lowQuarters m q]
  exact (mul_pos hquarters hunit).trans_le h.low

/-- In units of the last place the number is near to the mantissa. -/
theorem RoundsTo.near (h : RoundsTo m q v) : Near m (v / 2 ^ q) := by
  have hunit : (0 : ℚ) < 2 ^ (q - 2) := zpow_pos two_pos _
  have hq : (0 : ℚ) < 2 ^ q := zpow_pos two_pos q
  have hlow := mul_le_mul_of_nonneg_right (le_lowQuarters m q) hunit.le
  have htwo := two_zpow_eq q
  refine ⟨?_, ?_, fun hodd => ⟨?_, ?_⟩⟩
  · rw [le_div_iff₀ hq, htwo]
    linarith [h.low]
  · rw [div_le_iff₀ hq, htwo]
    linarith [h.high]
  · rw [lt_div_iff₀ hq, htwo]
    linarith [(h.odd hodd).1]
  · rw [div_lt_iff₀ hq, htwo]
    linarith [(h.odd hodd).2]

/-- What rounds to a double is smaller than the doubles with more bits. -/
theorem RoundsTo.lt_two_zpow (h : RoundsTo m q v) (hm : m < 2 ^ 53) : v < 2 ^ (52 + q + 1) := by
  have hunit : (0 : ℚ) < 2 ^ (q - 2) := zpow_pos two_pos _
  have hm' : (m : ℚ) + 1 ≤ 2 ^ 53 := by exact_mod_cast hm
  have hmul := mul_le_mul_of_nonneg_right hm' hunit.le
  rw [show 52 + q + 1 = 53 + q by omega, zpow_add₀ two_ne_zero, two_zpow_eq q, zpow_ofNat]
  linarith [h.high]

/-- Only what rounds to the least mantissa of full length is below all of these. -/
theorem RoundsTo.eq_implicitBit (h : RoundsTo m q v) (hm : implicitBit ≤ m)
    (hv : v < 2 ^ 52 * (4 * 2 ^ (q - 2))) : m = implicitBit := by
  by_contra hne
  have hunit : (0 : ℚ) < 2 ^ (q - 2) := zpow_pos two_pos _
  have hlow := (mul_le_mul_of_nonneg_right (le_lowQuarters m q) hunit.le).trans h.low
  have hlt : implicitBit + 1 ≤ m := lt_of_le_of_ne hm (Ne.symm hne)
  have hlt' : (2 : ℚ) ^ 52 + 1 ≤ m := by exact_mod_cast hlt
  have hmul := mul_le_mul_of_nonneg_right hlt' hunit.le
  linarith

end RoundsTo

section Rounding

variable {M : ℕ} {Q : ℤ} {v : ℚ} {s : Sign} {hM : 0 < M}
  (hrep : Representable (.finite s M Q hM))
include hrep

theorem Representable.target_eq : target M Q = Q := by
  obtain ⟨hlt, hQ, -, hsize⟩ := hrep
  have hlog : M.log2 < 53 := (Nat.log2_lt hM.ne').2 hlt
  unfold target
  rcases hsize with hnormal | rfl
  · have := (Nat.le_log2 hM.ne').2 hnormal
    omega
  · omega

/-- What rounds to a double is of its size, or of that below if it is below a power of two. -/
theorem RoundsTo.log_cases (hv : RoundsTo M Q v) : max (Int.log 2 v - 52) (-1074) = Q ∨
    M = implicitBit ∧ max (Int.log 2 v - 52) (-1074) = Q - 1 ∧
      (2 ^ 54 - 1) * 2 ^ (Q - 2) ≤ v ∧ v < 2 ^ 52 * (4 * 2 ^ (Q - 2)) := by
  obtain ⟨hlt, hQ, -, hsize⟩ := hrep
  have hunit : (0 : ℚ) < 2 ^ (Q - 2) := zpow_pos two_pos _
  have hbelow := hv.lt_two_zpow hlt
  by_cases hleast : Q = -1074
  · have hlog : Int.log 2 v < 52 + Q + 1 :=
      (Int.lt_zpow_iff_log_lt one_lt_two (hv.pos hM)).1 (by exact_mod_cast hbelow)
    left
    omega
  by_cases hbinade : 2 ^ (52 + Q) ≤ v
  · rw [log_eq hbinade hbelow]
    left
    omega
  -- the number is below the mantissas with this exponent, so it is near the least of them
  have htwo := two_zpow_eq Q
  rw [not_le, zpow_add₀ two_ne_zero, htwo, zpow_ofNat] at hbinade
  have hM' : M = implicitBit := hv.eq_implicitBit (hsize.resolve_right hleast) hbinade
  have hquarters : lowQuarters M Q = 2 ^ 54 - 1 := by
    rw [lowQuarters, if_pos ⟨hM', by omega⟩, hM']
    rfl
  have hquarter : (2 ^ 54 - 1) * 2 ^ (Q - 2) ≤ v := by
    have := hv.low
    rw [hquarters] at this
    exact_mod_cast this
  have hlog : Int.log 2 v = 51 + Q := by
    refine log_eq ?_ ?_
    · rw [zpow_add₀ two_ne_zero, htwo, zpow_ofNat]
      linarith
    · rw [show 51 + Q + 1 = 52 + Q by omega, zpow_add₀ two_ne_zero, htwo, zpow_ofNat]
      exact hbinade
  rw [hlog]
  exact .inr ⟨hM', by omega, hquarter, hbinade⟩

/-- What rounds to a double is rounded to it, if it is told finely enough. -/
theorem roundWithAccuracy_of_roundsTo {m : ℕ} {e : ℤ} {a : Accuracy} {x : ℚ}
    (hx : Covers (.ofMantissaAndAccuracy m a) x) (he : e ≤ target m e)
    (hv : RoundsTo M Q (x * 2 ^ e)) :
    roundWithAccuracy format s m e a = .finite s M Q hM := by
  have hfloor := hx.floor
  rw [mantissa_ofMantissaAndAccuracy] at hfloor
  have hpos : 0 < x := pos_of_mul_pos_left (hv.pos hM) (zpow_pos two_pos e).le
  have htarget := target_eq_log hfloor.1 hfloor.2 hpos he
  have hshift : e + surplus m e = target m e := by
    unfold surplus
    omega
  have hcovers := hx.shiftRight (surplus m e)
  rw [shifted_eq he] at hcovers
  rcases hv.log_cases hrep with hexp | ⟨rfl, hexp, hlow, hhigh⟩
  · rw [← htarget] at hexp
    rw [hexp] at hcovers hshift
    rw [roundWithAccuracy_eq s m e a (hcovers.roundedMantissa_eq hv.near), hshift]
    have hnone : surplus M Q = 0 := by
      rw [surplus, hrep.target_eq]
      omega
    simp [hnone, hM.ne']
  · -- the mantissa is rounded up to a power of two, and loses the bit that is too many
    rw [← htarget] at hexp
    rw [hexp] at hcovers hshift
    have hnear : Near (2 ^ 53) (x * 2 ^ e / 2 ^ (Q - 1)) := by
      have hunit : (0 : ℚ) < 2 ^ (Q - 1) := zpow_pos two_pos _
      have htwo : (2 : ℚ) ^ (Q - 1) = 2 * 2 ^ (Q - 2) := by
        rw [show Q - 1 = Q - 2 + 1 by omega, zpow_add_one₀ two_ne_zero, mul_comm]
      refine ⟨?_, ?_, fun hodd => ?_⟩
      · rw [le_div_iff₀ hunit, htwo]
        push_cast
        linarith
      · rw [div_le_iff₀ hunit, htwo]
        push_cast
        linarith
      · norm_num at hodd
    have hone : surplus (2 ^ 53) (Q - 1) = 1 := by
      have hQ := hrep.2.1
      rw [surplus, target, Nat.log2_two_pow]
      omega
    rw [roundWithAccuracy_eq s m e a (hcovers.roundedMantissa_eq hnear), hshift]
    simp only [hone]
    rw [dif_neg (by norm_num)]
    congr 1
    omega

end Rounding

end Joinery.Double
