import Mathlib
/-!
# How doubles are stored and rounded

A double is a word of 64 bits that stands for an infinity, a signed zero, a
value that is not a number, or a mantissa with an exponent. Results are computed
with mantissas and exponents of any size, rounded to 53 bits, and stored. Both
can lose a result: one too large is stored as an infinity, one too small as a
zero. The sign stays.
-/

namespace Joinery.Double

open Float.Model Float.Model.UnpackedFloat

/-- The format of doubles. -/
abbrev format : Format := Format.binary64

/-- What is left of a result when it is stored as a double. -/
def stored (u : UnpackedFloat) : UnpackedFloat := unpack format (pack format u)

/-! ## Words -/

theorem unpackSign_packComponents {spec : Format} {sign exponent mantissa} :
    unpackSign (packComponents spec sign exponent mantissa) = sign.toBitVec := by
  ext i hi
  obtain rfl : i = 0 := by omega
  simp [unpackSign, packComponents, BitVec.getLsbD_eq_getElem, BitVec.getLsbD_append,
    BitVec.getElem_append]

theorem ofBitVec_toBitVec (s : Sign) : Sign.ofBitVec s.toBitVec = s := by cases s <;> rfl

theorem toNat_implicit (m : BitVec 52) : (1#1 ++ m).toNat = 2 ^ 52 + m.toNat := by
  rw [BitVec.toNat_append, ← Nat.shiftLeft_add_eq_or_of_lt m.isLt]
  rfl

theorem unpack_normal (s : Sign) {e : BitVec 11} (m : BitVec 52) (he : e ≠ -1#_) (he' : e ≠ 0#_) :
    unpack format (packComponents format s e m)
      = .finite s (2 ^ 52 + m.toNat) (e.toNat - 1075) (by omega) := by
  unfold Float.Model.UnpackedFloat.unpack
  simp only [unpackMantissa_packComponents, unpackExponent_packComponents,
    unpackSign_packComponents, ofBitVec_toBitVec, toNat_implicit, if_neg he, if_neg he']
  rfl

theorem unpack_small (s : Sign) {m : BitVec 52} (hm : m ≠ 0#_) :
    unpack format (packComponents format s 0#_ m)
      = .finite s m.toNat (-1074)
          (by simpa [BitVec.toNat_pos, BitVec.pos_iff_ne_zero] using hm) := by
  unfold Float.Model.UnpackedFloat.unpack
  simp only [unpackMantissa_packComponents, unpackExponent_packComponents,
    unpackSign_packComponents, ofBitVec_toBitVec, dif_neg hm]
  rfl

theorem pack_finite (s : Sign) {m : Nat} {e : Int} (hm : 0 < m) :
    pack format (.finite s m e hm) =
      if 2 ^ 11 ≤ (e + 1075).toNat + 1 then packedInfinity format s
      else if m.log2 + 1 = 53 then
        packComponents format s (BitVec.ofNat 11 (e + 1075).toNat) (BitVec.ofNat 52 m)
      else packComponents format s 0#11 (BitVec.ofNat 52 m) := by
  rw [← show e + ((1023 : Nat) : Int) + ((52 : Nat) : Int) = e + 1075 by omega]
  rfl

/-! ## Stored results -/

@[simp]
theorem stored_infinity (s : Sign) : stored (.infinity s) = .infinity s := by
  cases s <;> rfl

@[simp]
theorem stored_notANumber : stored .notANumber = .notANumber := rfl

@[simp]
theorem stored_zero (s : Sign) : stored (.zero s) = .zero s := by
  cases s <;> rfl

theorem stored_overflow (s : Sign) {m : Nat} {e : Int} (hm : 0 < m) (he : 971 < e) :
    stored (.finite s m e hm) = .infinity s := by
  rw [stored, pack_finite, if_pos (by omega)]
  exact stored_infinity s

theorem stored_normal (s : Sign) {m : Nat} {e : Int} (hm : 2 ^ 52 ≤ m) (hm' : m < 2 ^ 53)
    (he : -1074 ≤ e) (he' : e ≤ 971) :
    stored (.finite s m e (by omega)) = .finite s m e (by omega) := by
  have hlog : m.log2 + 1 = 53 := by
    have h := (Nat.le_log2 (by omega)).2 hm
    have h' := (Nat.log2_lt (by omega)).2 hm'
    omega
  rw [stored, pack_finite, if_neg (by omega), if_pos hlog, unpack_normal]
  · congr 1
    · rw [BitVec.toNat_ofNat]
      omega
    · rw [BitVec.toNat_ofNat]
      omega
  · intro h
    have := congrArg BitVec.toNat h
    simp at this
    omega
  · intro h
    have := congrArg BitVec.toNat h
    simp at this
    omega

theorem stored_small (s : Sign) {m : Nat} (hm : 0 < m) (hm' : m < 2 ^ 52) :
    stored (.finite s m (-1074) hm) = .finite s m (-1074) hm := by
  have hlog : ¬m.log2 + 1 = 53 := by
    have := (Nat.log2_lt (by omega)).2 hm'
    omega
  rw [stored, pack_finite, if_neg (by decide), if_neg hlog, unpack_small]
  · congr 1
    rw [BitVec.toNat_ofNat, Nat.mod_eq_of_lt hm']
  · intro h
    have := congrArg BitVec.toNat h
    simp at this
    omega

/-- Storing a finite result may lose it to infinity if it is too large, and to
zero if it is too small; never its sign. -/
theorem stored_finite_cases (s : Sign) {m : Nat} {e : Int} (hm : 0 < m) :
    (971 < e ∧ stored (.finite s m e hm) = .infinity s) ∨
    ((e < -1074 ∨ 2 ^ 53 ≤ m) ∧ stored (.finite s m e hm) = .zero s) ∨
    ∃ m' e', ∃ hm', stored (.finite s m e hm) = .finite s m' e' hm' ∧
      (m' = m ∧ e' = e ∨ e' = -1074) := by
  by_cases hinf : 971 < e
  · exact .inl ⟨hinf, stored_overflow s hm hinf⟩
  right
  by_cases hnormal : 2 ^ 52 ≤ m ∧ m < 2 ^ 53 ∧ -1074 ≤ e
  · obtain ⟨h, h', he⟩ := hnormal
    exact .inr ⟨_, _, _, stored_normal s h h' he (by omega), .inl ⟨rfl, rfl⟩⟩
  -- What is left has an exponent of zeros in its word, whatever its mantissa.
  have hsmall : stored (.finite s m e hm)
      = unpack format (packComponents format s 0#11 (BitVec.ofNat 52 m)) := by
    rw [stored, pack_finite, if_neg (by omega)]
    split
    case isFalse => rfl
    case isTrue hlog =>
      have h := Nat.log2_self_le (Nat.ne_of_gt hm)
      have h' := @Nat.lt_log2_self m
      rw [show m.log2 = 52 by omega] at h h'
      rw [show (e + 1075).toNat = 0 by omega]
  rw [hsmall]
  by_cases hz : BitVec.ofNat 52 m = 0#52
  · left
    refine ⟨?_, ?_⟩
    · have h := congrArg BitVec.toNat hz
      simp at h
      omega
    · rw [hz]
      exact stored_zero s
  · exact .inr ⟨_, _, _, unpack_small s hz, .inr rfl⟩

/-! ## Rounding -/

/-- The exponent that a mantissa with this exponent is brought to. -/
def target (m : Nat) (e : Int) : Int := max (m.log2 + 1 + e - 53) (-1074)

/-- How many bits of the mantissa are lost on the way. -/
def surplus (m : Nat) (e : Int) : Nat := (target m e - e).toNat

theorem mantissa_shiftRight (em : ExtendedMantissa) (k : Nat) :
    (em >>> k).mantissa = em.mantissa / 2 ^ k := by
  induction k with
  | zero => simp [HShiftRight.hShiftRight, Nat.repeat]
  | succ k ih =>
    show (em >>> k).mantissa / 2 = _
    rw [ih, Nat.div_div_eq_div_mul, Nat.pow_succ]

theorem shiftRight_exact {m q k : Nat} (h : m = q * 2 ^ k) :
    (⟨m, false, false⟩ : ExtendedMantissa) >>> k = ⟨q, false, false⟩ := by
  subst h
  induction k generalizing q with
  | zero => simp [HShiftRight.hShiftRight, Nat.repeat]
  | succ k ih =>
    have h : q * 2 ^ (k + 1) = 2 * q * 2 ^ k := by
      rw [Nat.pow_succ, Nat.mul_comm 2, Nat.mul_assoc, Nat.mul_comm 2]
    show ((⟨q * 2 ^ (k + 1), false, false⟩ : ExtendedMantissa) >>> k).shiftRightOne = _
    rw [h, ih]
    simp [ExtendedMantissa.shiftRightOne]

theorem le_roundedMantissa (em : ExtendedMantissa) :
    em.mantissa ≤ em.roundedMantissa ∧ em.roundedMantissa ≤ em.mantissa + 1 := by
  obtain ⟨m, r, s⟩ := em
  cases r <;> cases s <;> simp [ExtendedMantissa.roundedMantissa, ExtendedMantissa.accuracy,
    Accuracy.roundToNearestEven]
  omega

/-- A number is rounded by dropping its surplus as far as it tells how to round, which can
leave a surplus of its own. -/
theorem roundWithAccuracy_eq (s : Sign) (m : Nat) (e : Int) (a : Accuracy) {r : Nat}
    (hr : (ExtendedMantissa.ofMantissaAndAccuracy m a >>> surplus m e).roundedMantissa = r) :
    roundWithAccuracy format s m e a =
      if h : r / 2 ^ surplus r (e + surplus m e) = 0 then .zero s
      else .finite s (r / 2 ^ surplus r (e + surplus m e))
        (e + surplus m e + surplus r (e + surplus m e)) (Nat.pos_of_ne_zero h) := by
  subst hr
  simp only [← mantissa_shiftRight ⟨_, false, false⟩]
  rfl

/-- A number that is given exactly is rounded by dropping its surplus and adding at most
one. -/
theorem roundWithAccuracy_exact (s : Sign) (m : Nat) (e : Int) :
    ∃ r, m / 2 ^ surplus m e ≤ r ∧ r ≤ m / 2 ^ surplus m e + 1 ∧
      (∀ q, m = q * 2 ^ surplus m e → r = q) ∧
      roundWithAccuracy format s m e .exact =
        if h : r / 2 ^ surplus r (e + surplus m e) = 0 then .zero s
        else .finite s (r / 2 ^ surplus r (e + surplus m e))
          (e + surplus m e + surplus r (e + surplus m e)) (Nat.pos_of_ne_zero h) := by
  let em : ExtendedMantissa := (⟨m, false, false⟩ : ExtendedMantissa) >>> surplus m e
  have hem : em.mantissa = m / 2 ^ surplus m e := mantissa_shiftRight _ _
  refine ⟨em.roundedMantissa, ?_, ?_, ?_, roundWithAccuracy_eq s m e .exact rfl⟩
  · rw [← hem]
    exact (le_roundedMantissa em).1
  · rw [← hem]
    exact (le_roundedMantissa em).2
  · intro q hq
    have : em = ⟨q, false, false⟩ := shiftRight_exact hq
    rw [this]
    rfl

/-- However a result is rounded, its sign is the one it had. -/
theorem roundWithAccuracy_cases (s : Sign) (m : Nat) (e : Int) (a : Accuracy) :
    roundWithAccuracy format s m e a = .zero s ∨
      ∃ m' e', ∃ hm', roundWithAccuracy format s m e a = .finite s m' e' hm' := by
  unfold roundWithAccuracy
  dsimp only
  split
  case isTrue => exact .inl rfl
  case isFalse h => exact .inr ⟨_, _, Nat.pos_of_ne_zero h, rfl⟩

theorem div_surplus_lt (m : Nat) (e : Int) : m / 2 ^ surplus m e < 2 ^ 53 := by
  rw [Nat.div_lt_iff_lt_mul (Nat.two_pow_pos _), ← Nat.pow_add]
  refine Nat.lt_of_lt_of_le Nat.lt_log2_self (Nat.pow_le_pow_right (by omega) ?_)
  unfold surplus target
  omega

/-! ## Rounding and order -/

/-- What has the mantissa and the exponent of a double is stored as it is. -/
theorem stored_normalized (s : Sign) {m : Nat} {e : Int} (hm : 0 < m) (hlt : m < 2 ^ 53)
    (he : -1074 ≤ e) (he' : e ≤ 971) (hsize : 2 ^ 52 ≤ m ∨ e = -1074) :
    stored (.finite s m e hm) = .finite s m e hm := by
  by_cases hnormal : 2 ^ 52 ≤ m
  · exact stored_normal s hnormal hlt he he'
  · obtain rfl : e = -1074 := hsize.resolve_left hnormal
    exact stored_small s hm (by omega)

/-- A mantissa that was rounded fits, or is the one that needs a bit more. -/
theorem surplus_rounded {r : Nat} {d : Int} (hr : r ≤ 2 ^ 53) (hd : -1074 ≤ d) :
    r < 2 ^ 53 ∧ surplus r d = 0 ∨ r = 2 ^ 53 ∧ surplus r d = 1 := by
  rcases Nat.lt_or_eq_of_le hr with hlt | rfl
  · refine .inl ⟨hlt, ?_⟩
    have hlog : r.log2 ≤ 52 := by
      rcases Nat.eq_zero_or_pos r with rfl | hpos
      · decide
      · exact Nat.le_of_lt_succ ((Nat.log2_lt (Nat.ne_of_gt hpos)).2 hlt)
    unfold surplus target
    omega
  · refine .inr ⟨rfl, ?_⟩
    have hlog : (2 ^ 53 : Nat).log2 = 53 := by decide
    unfold surplus target
    omega

section Order

variable {m p : Nat} {e f : Int}

/-- A number that has enough bits, or a small enough exponent, is brought to a larger
exponent. -/
theorem add_surplus (hp : 2 ^ 52 ≤ p ∨ f ≤ -1074) : f + surplus p f = target p f := by
  have hlog : 52 ≤ p.log2 ∨ f ≤ -1074 := hp.imp_left fun h => (Nat.le_log2 (by omega)).2 h
  unfold surplus target
  omega

/-- A mantissa that is not brought to the least exponent keeps 53 bits. -/
theorem le_div_surplus (hp : 2 ^ 52 ≤ p ∨ f ≤ -1074) :
    2 ^ 52 ≤ p / 2 ^ surplus p f ∨ f + surplus p f = -1074 := by
  have hd := add_surplus hp
  by_cases h : target p f = -1074
  · exact .inr (hd.trans h)
  · have hlog : (surplus p f : Int) = p.log2 - 52 := by
      unfold target at h hd
      omega
    have hpos : p ≠ 0 := by
      rintro rfl
      have : Nat.log2 0 = 0 := rfl
      omega
    refine .inl ((Nat.le_div_iff_mul_le (Nat.two_pow_pos _)).2 ?_)
    rw [← Nat.pow_add]
    exact Nat.le_trans (Nat.pow_le_pow_right (by omega) (by omega)) (Nat.log2_self_le hpos)

/-- How a number is rounded that is brought to a larger exponent: to a mantissa that fits,
there or, where it needs a bit more, at the exponent after. -/
theorem round_cases (s : Sign) (hp : 2 ^ 52 ≤ p ∨ f ≤ -1074) :
    ∃ r, p / 2 ^ surplus p f ≤ r ∧ r ≤ p / 2 ^ surplus p f + 1 ∧
      (∀ q, p = q * 2 ^ surplus p f → r = q) ∧
      (r = 0 ∧ roundWithAccuracy format s p f .exact = .zero s ∨
        (∃ hr : 0 < r, r < 2 ^ 53 ∧
          roundWithAccuracy format s p f .exact = .finite s r (target p f) hr) ∨
        r = 2 ^ 53 ∧ roundWithAccuracy format s p f .exact =
          .finite s (2 ^ 52) (target p f + 1) (Nat.two_pow_pos 52)) := by
  obtain ⟨r, hr, hr', hexact, heq⟩ := roundWithAccuracy_exact s p f
  refine ⟨r, hr, hr', hexact, ?_⟩
  rw [add_surplus hp] at heq
  have hleast : -1074 ≤ target p f := Int.le_max_right _ _
  rcases surplus_rounded (Nat.le_trans hr' (div_surplus_lt p f)) hleast with ⟨hlt, hs⟩ | ⟨rfl, hs⟩
  · rcases Nat.eq_zero_or_pos r with rfl | hpos
    · exact .inl ⟨rfl, by rw [heq, dif_pos (Nat.zero_div _)]⟩
    · refine .inr (.inl ⟨hpos, hlt, ?_⟩)
      rw [heq, dif_neg (by simpa [hs] using Nat.ne_of_gt hpos)]
      simp [hs]
  · have hhalf : 2 ^ 53 / 2 ^ surplus (2 ^ 53) (target p f) = 2 ^ 52 := by rw [hs]; rfl
    refine .inr (.inr ⟨rfl, ?_⟩)
    rw [heq, dif_neg (by rw [hhalf]; decide)]
    simp only [hs]
    rfl

/-- The exponent of a double is at most that of what is no smaller. -/
theorem le_target (he : -1074 ≤ e) (hsize : 2 ^ 52 ≤ m ∨ e = -1074)
    (hle : m * 2 ^ (e - f).toNat ≤ p * 2 ^ (f - e).toNat) : e ≤ target p f := by
  rcases hsize with hm | rfl
  · have hpow : 2 ^ (52 + (e - f).toNat) < 2 ^ (p.log2 + 1 + (f - e).toNat) := by
      calc 2 ^ (52 + (e - f).toNat) = 2 ^ 52 * 2 ^ (e - f).toNat := Nat.pow_add ..
        _ ≤ m * 2 ^ (e - f).toNat := Nat.mul_le_mul_right _ hm
        _ ≤ p * 2 ^ (f - e).toNat := hle
        _ < 2 ^ (p.log2 + 1) * 2 ^ (f - e).toNat :=
            Nat.mul_lt_mul_of_pos_right Nat.lt_log2_self (Nat.two_pow_pos _)
        _ = 2 ^ (p.log2 + 1 + (f - e).toNat) := (Nat.pow_add ..).symm
    have := (Nat.pow_lt_pow_iff_right (by omega)).1 hpow
    unfold target
    omega
  · exact Int.le_max_right _ _

/-- The exponent of a double is at least that of what is no larger. -/
theorem target_le (hp : 0 < p) (he : -1074 ≤ e) (hlt : m < 2 ^ 53) (hf : f ≤ e)
    (hle : p ≤ m * 2 ^ (e - f).toNat) : target p f ≤ e := by
  have hlog : p.log2 < 53 + (e - f).toNat := by
    refine (Nat.log2_lt (Nat.ne_of_gt hp)).2 (Nat.lt_of_le_of_lt hle ?_)
    rw [Nat.pow_add]
    exact Nat.mul_lt_mul_of_pos_right hlt (Nat.two_pow_pos _)
  unfold target
  omega

/-- What is at least a double is stored as at least that double. -/
theorem le_stored_round (s : Sign) (hm : 0 < m) (he : -1074 ≤ e) (hsize : 2 ^ 52 ≤ m ∨ e = -1074)
    (hp : 2 ^ 52 ≤ p) (hle : m * 2 ^ (e - f).toNat ≤ p * 2 ^ (f - e).toNat) :
    stored (roundWithAccuracy format s p f .exact) = .infinity s ∨
    ∃ m' e', ∃ hm', stored (roundWithAccuracy format s p f .exact) = .finite s m' e' hm' ∧
      (e < e' ∨ e = e' ∧ m ≤ m') := by
  obtain ⟨r, hr, -, -, hcases⟩ := round_cases s (.inl hp : 2 ^ 52 ≤ p ∨ f ≤ -1074)
  have hd := add_surplus (.inl hp : 2 ^ 52 ≤ p ∨ f ≤ -1074)
  have htarget := le_target he hsize hle
  have hnormal := le_div_surplus (.inl hp : 2 ^ 52 ≤ p ∨ f ≤ -1074)
  -- where the exponent is that of the double, the mantissa is no smaller than its
  have hmantissa : target p f = e → m ≤ r := by
    intro h
    refine Nat.le_trans ((Nat.le_div_iff_mul_le (Nat.two_pow_pos _)).2 ?_) hr
    rw [show (e - f).toNat = surplus p f by omega, show (f - e).toNat = 0 by omega] at hle
    simpa using hle
  obtain ⟨m', e', hm', hround, hlt, hleast, hsize', hcompare⟩ : ∃ m' e', ∃ hm',
      roundWithAccuracy format s p f .exact = .finite s m' e' hm' ∧ m' < 2 ^ 53 ∧ -1074 ≤ e' ∧
        (2 ^ 52 ≤ m' ∨ e' = -1074) ∧ (e < e' ∨ e = e' ∧ m ≤ m') := by
    rcases hcases with ⟨rfl, -⟩ | ⟨hpos, hlt, h⟩ | ⟨-, h⟩
    · omega
    · exact ⟨_, _, _, h, hlt, by omega, by omega, by omega⟩
    · exact ⟨_, _, _, h, by decide, by omega, .inl (Nat.le_refl _), by omega⟩
  rw [hround]
  by_cases hlarge : 971 < e'
  · exact .inl (stored_overflow s hm' hlarge)
  · exact .inr ⟨m', e', hm', stored_normalized s hm' hlt hleast (by omega) hsize', hcompare⟩

/-- What is at most a double is stored as at most that double. -/
theorem stored_round_le (s : Sign) (hp : 0 < p) (hlt : m < 2 ^ 53) (he : -1074 ≤ e)
    (he' : e ≤ 971) (hsize : 2 ^ 52 ≤ m ∨ e = -1074) (hf : f ≤ e)
    (henough : 2 ^ 52 ≤ p ∨ f ≤ -1074) (hle : p ≤ m * 2 ^ (e - f).toNat) :
    stored (roundWithAccuracy format s p f .exact) = .zero s ∨
    ∃ m' e', ∃ hm', stored (roundWithAccuracy format s p f .exact) = .finite s m' e' hm' ∧
      (e' < e ∨ e' = e ∧ m' ≤ m) := by
  obtain ⟨r, hr, hr', hexact, hcases⟩ := round_cases s henough
  have hd := add_surplus henough
  have htarget := target_le hp he hlt hf hle
  have hnormal := le_div_surplus henough
  have hleast : -1074 ≤ target p f := Int.le_max_right _ _
  -- where the exponent is that of the double, the mantissa is no larger than its
  have hmantissa : target p f = e → r ≤ m := by
    intro h
    rw [show (e - f).toNat = surplus p f by omega] at hle
    rcases Nat.lt_or_eq_of_le (Nat.div_le_of_le_mul (Nat.mul_comm _ _ ▸ hle)) with hless | hsame
    · omega
    · refine Nat.le_of_eq (hexact m (Nat.le_antisymm hle ?_))
      rw [← hsame]
      exact Nat.div_mul_le_self _ _
  rcases hcases with ⟨-, h⟩ | ⟨hpos, hfits, h⟩ | ⟨rfl, h⟩ <;> rw [h]
  · exact .inl (stored_zero s)
  · exact .inr ⟨r, _, hpos, stored_normalized s hpos hfits hleast (by omega) (by omega), by omega⟩
  · refine .inr ⟨_, _, _, stored_normalized s _ (by decide) (by omega) (by omega)
      (.inl (Nat.le_refl _)), by omega⟩

end Order

end Joinery.Double
