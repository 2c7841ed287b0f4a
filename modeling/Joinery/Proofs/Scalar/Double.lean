import Joinery.Proofs.Scalar.Laws
import Joinery.Proofs.Scalar.Rounding
import Joinery.Scalar.Double
/-!
# Doubles obey the laws

The scalars that the library runs on are lawful as far as their four operations,
their comparisons and their square root go. Comparisons follow from a rank that
every double has, apart from the value that is not a number; what a result of
the operations is follows from the cases of its operands, and how large it is
from how it is rounded.
-/

namespace Joinery.Double

open Float.Model (UnpackedFloat Format)
open Float.Model.UnpackedFloat

/-! ## Ranks -/

/-- Where a double stands among all: the side it is on, then how large it is. -/
def rank : UnpackedFloat → Option (ℤ ×ₗ ℤ ×ₗ ℤ)
  | .notANumber => none
  | .infinity .negative => some (toLex (-2, toLex (0, 0)))
  | .finite .negative m e _ => some (toLex (-1, toLex (-e, -(m : ℤ))))
  | .zero _ => some (toLex (0, toLex (0, 0)))
  | .finite .positive m e _ => some (toLex (1, toLex (e, (m : ℤ))))
  | .infinity .positive => some (toLex (2, toLex (0, 0)))

theorem compare_cast (m m' : ℕ) : compare m m' = compare (m : ℤ) (m' : ℤ) := by
  rcases lt_trichotomy m m' with h | h | h
  · rw [compare_lt_iff_lt.2 h, compare_lt_iff_lt.2 (Int.ofNat_lt.2 h)]
  · rw [h, compare_eq_iff_eq.2 rfl, compare_eq_iff_eq.2 rfl]
  · rw [compare_gt_iff_gt.2 h, compare_gt_iff_gt.2 (Int.ofNat_lt.2 h)]

theorem swap_compare (x y : ℤ) : (compare x y).swap = compare (-x) (-y) := by
  rcases lt_trichotomy x y with h | h | h
  · rw [compare_lt_iff_lt.2 h, compare_gt_iff_gt.2 (neg_lt_neg h)]
    rfl
  · rw [h, compare_eq_iff_eq.2 rfl, compare_eq_iff_eq.2 rfl]
    rfl
  · rw [compare_gt_iff_gt.2 h, compare_lt_iff_lt.2 (neg_lt_neg h)]
    rfl

/-- Doubles compare as their ranks do. -/
theorem compare_eq (a b : UnpackedFloat) :
    a.compare b = (rank a).bind fun k => (rank b).map fun l => compare k l := by
  rcases a with s | _ | s | ⟨s, m, e, hm⟩ <;> rcases b with s' | _ | s' | ⟨s', m', e', hm'⟩ <;>
    (try cases s) <;> (try cases s') <;> try rfl
  case finite.finite.negative.negative =>
    refine congrArg some ?_
    rw [Ordering.swap_then, swap_compare, compare_cast, swap_compare]
    rfl
  case finite.finite.positive.positive =>
    refine congrArg some ?_
    rw [compare_cast]
    rfl

/-- The number that a double stands for, with the mantissa and exponent it has. -/
def parts (x : Float) : UnpackedFloat := x.toModel.unpack

theorem le_iff {x y : Float} :
    x ≤ y ↔ ∃ k l, rank (parts x) = some k ∧ rank (parts y) = some l ∧ k ≤ l := by
  show decide (((parts x).compare (parts y)).any (·.isLE) = true) = true ↔ _
  rw [decide_eq_true_iff, compare_eq]
  cases rank (parts x) <;> cases rank (parts y) <;> simp
  exact Ordering.isLE_iff_ne_gt.trans compare_le_iff_le

theorem lt_iff {x y : Float} :
    x < y ↔ ∃ k l, rank (parts x) = some k ∧ rank (parts y) = some l ∧ k < l := by
  show decide (((parts x).compare (parts y) == some .lt) = true) = true ↔ _
  rw [decide_eq_true_iff, compare_eq]
  cases rank (parts x) <;> cases rank (parts y) <;> simp
  exact compare_lt_iff_lt

theorem beq_iff {x y : Float} :
    (x == y) = true ↔ ∃ k l, rank (parts x) = some k ∧ rank (parts y) = some l ∧ k = l := by
  show ((parts x).compare (parts y) == some .eq) = true ↔ _
  rw [compare_eq]
  cases rank (parts x) <;> cases rank (parts y) <;> simp
  exact compare_eq_iff_eq.trans eq_comm

theorem isFinite_iff {x : Float} : Arithmetic.isFinite x = true ↔
    ∃ k, rank (parts x) = some k ∧ -1 ≤ (ofLex k).1 ∧ (ofLex k).1 ≤ 1 := by
  show (parts x).isFinite = true ↔ _
  rcases parts x with s | _ | s | ⟨s, m, e, hm⟩ <;> (try cases s) <;>
    simp [rank, Float.Model.UnpackedFloat.isFinite]

instance : LawfulOrder Float where
  refl_left h := by
    obtain ⟨k, l, hx, -, -⟩ := le_iff.1 h
    exact le_iff.2 ⟨k, k, hx, hx, le_rfl⟩
  refl_right h := by
    obtain ⟨k, l, -, hy, -⟩ := le_iff.1 h
    exact le_iff.2 ⟨l, l, hy, hy, le_rfl⟩
  trans h h' := by
    obtain ⟨k, l, hx, hy, hkl⟩ := le_iff.1 h
    obtain ⟨l', n, hy', hz, hln⟩ := le_iff.1 h'
    obtain rfl : l = l' := Option.some_inj.1 (hy.symm.trans hy')
    exact le_iff.2 ⟨k, n, hx, hz, hkl.trans hln⟩
  total h h' := by
    obtain ⟨k, -, hx, -, -⟩ := le_iff.1 h
    obtain ⟨l, -, hy, -, -⟩ := le_iff.1 h'
    rcases le_total k l with hkl | hlk
    · exact .inl (le_iff.2 ⟨k, l, hx, hy, hkl⟩)
    · exact .inr (le_iff.2 ⟨l, k, hy, hx, hlk⟩)
  lt_iff {x y} := by
    rw [lt_iff, le_iff, le_iff]
    cases rank (parts x) <;> cases rank (parts y) <;> simp
    exact le_of_lt
  beq_iff {x y} := by
    rw [beq_iff, le_iff, le_iff]
    cases rank (parts x) <;> cases rank (parts y) <;> simp
    exact eq_comm.trans le_antisymm_iff
  refl_of_isFinite h := by
    obtain ⟨k, hx, -⟩ := isFinite_iff.1 h
    exact le_iff.2 ⟨k, k, hx, hx, le_rfl⟩

/-! ## Doubles as they are stored -/

/-- The mantissas and exponents of doubles. -/
def Representable : UnpackedFloat → Prop
  | .finite _ m e _ => m < 2 ^ 53 ∧ -1074 ≤ e ∧ e ≤ 971 ∧ (2 ^ 52 ≤ m ∨ e = -1074)
  | _ => True

theorem representable_unpack (b : BitVec format.numBits) : Representable (unpack format b) := by
  have hm : (@unpackMantissa format b).toNat < 2 ^ 52 := (@unpackMantissa format b).isLt
  have he : (@unpackExponent format b).toNat < 2 ^ 11 := (@unpackExponent format b).isLt
  have hbias : ((format.exponentBias : ℕ) : ℤ) = 1023 := rfl
  unfold Float.Model.UnpackedFloat.unpack
  dsimp only
  split
  case isTrue => split <;> trivial
  case isFalse hne =>
    have hne' : (@unpackExponent format b).toNat ≠ 2047 := fun h => hne (BitVec.eq_of_toNat_eq h)
    split
    case isTrue hz =>
      have hz' : (@unpackExponent format b).toNat = 0 := congrArg BitVec.toNat hz
      split
      case isTrue => trivial
      case isFalse =>
        unfold Representable
        simp only [hbias]
        omega
    case isFalse hz =>
      have hz' : (@unpackExponent format b).toNat ≠ 0 := fun h => hz (BitVec.eq_of_toNat_eq h)
      unfold Representable
      simp only [toNat_implicit, hbias]
      omega

theorem Representable.stored_eq {u : UnpackedFloat} (h : Representable u) : stored u = u := by
  rcases u with s | _ | s | ⟨s, m, e, hm⟩
  · exact stored_infinity s
  · rfl
  · exact stored_zero s
  · obtain ⟨hlt, he, he', hsize⟩ := h
    exact stored_normalized s hm hlt he he' hsize

theorem representable_parts (x : Float) : Representable (parts x) := representable_unpack _

theorem stored_parts (x : Float) : stored (parts x) = parts x := (representable_parts x).stored_eq

theorem parts_add (x y : Float) : parts (x + y) = stored (add format (parts x) (parts y)) := rfl

theorem parts_sub (x y : Float) : parts (x - y) = stored (sub format (parts x) (parts y)) := rfl

theorem parts_mul (x y : Float) : parts (x * y) = stored (mul format (parts x) (parts y)) := rfl

theorem parts_div (x y : Float) : parts (x / y) = stored (div format (parts x) (parts y)) := rfl

theorem parts_abs (x : Float) : parts (Arithmetic.abs x) = stored (parts x).abs := rfl

theorem parts_sqrt (x : Float) : parts (Scalar.sqrt x) = stored (sqrt format (parts x)) := rfl

theorem parts_zero : parts (Zero.zero : Float) = .zero .positive := by rfl

theorem parts_one : parts (One.one : Float) = .finite .positive (2 ^ 52) (-52) (by decide) := by rfl

/-! ## Operations -/

/-- Zeros of either sign, and everything of positive sign. -/
def Nonneg : UnpackedFloat → Prop
  | .infinity .positive | .zero _ | .finite .positive .. => True
  | _ => False

theorem isFinite_of_stored {u : UnpackedFloat} (h : (stored u).isFinite = true) :
    u.isFinite = true := by
  rcases u with s | _ | s | ⟨s, m, e, hm⟩
  · rwa [stored_infinity] at h
  · exact h
  · rfl
  · rfl

theorem nonneg_stored {u : UnpackedFloat} (h : Nonneg u) : Nonneg (stored u) := by
  rcases u with s | _ | s | ⟨_ | _, m, e, hm⟩
  · rwa [stored_infinity]
  · exact h
  · rwa [stored_zero]
  · exact h.elim
  · rcases stored_finite_cases .positive (e := e) hm with ⟨-, h⟩ | ⟨-, h⟩ | ⟨m', e', hm', h, -⟩ <;>
      rw [h] <;> trivial

theorem nonneg_round (m : ℕ) (e : ℤ) (a : Accuracy) :
    Nonneg (roundWithAccuracy format .positive m e a) := by
  rcases roundWithAccuracy_cases .positive m e a with h | ⟨m', e', hm', h⟩ <;> rw [h] <;> trivial

variable {a b : UnpackedFloat}

theorem finite_of_add (h : (add format a b).isFinite = true) :
    a.isFinite = true ∧ b.isFinite = true := by
  rcases a with (_ | _) | _ | _ | _ <;> rcases b with (_ | _) | _ | _ | _ <;>
    first | exact ⟨rfl, rfl⟩ | cases h

theorem finite_of_sub (h : (sub format a b).isFinite = true) :
    a.isFinite = true ∧ b.isFinite = true := by
  rcases a with (_ | _) | _ | _ | _ <;> rcases b with (_ | _) | _ | _ | _ <;>
    first | exact ⟨rfl, rfl⟩ | cases h

theorem finite_of_mul (h : (mul format a b).isFinite = true) :
    a.isFinite = true ∧ b.isFinite = true := by
  rcases a with (_ | _) | _ | _ | _ <;> rcases b with (_ | _) | _ | _ | _ <;>
    first | exact ⟨rfl, rfl⟩ | cases h

theorem finite_of_sqrt (h : (sqrt format a).isFinite = true) : a.isFinite = true := by
  rcases a with (_ | _) | _ | _ | _ <;> first | rfl | cases h

/-- Zeros of either sign, and what is not a number. -/
def IsBlank (u : UnpackedFloat) : Prop := u = .notANumber ∨ ∃ s, u = .zero s

theorem blank_stored (h : IsBlank a) : IsBlank (stored a) := by
  rcases h with rfl | ⟨s, rfl⟩
  · exact .inl stored_notANumber
  · exact .inr ⟨s, stored_zero s⟩

theorem sub_self (a : UnpackedFloat) : IsBlank (sub format a a) := by
  rcases a with s | _ | s | ⟨s, m, e, hm⟩
  · cases s <;> exact .inl rfl
  · exact .inl rfl
  · cases s <;> exact .inr ⟨_, rfl⟩
  · simp [IsBlank, sub, UnpackedFloat.normalize]

theorem blank_add (ha : IsBlank a) (hb : IsBlank b) : IsBlank (add format a b) := by
  rcases ha with rfl | ⟨_ | _, rfl⟩ <;> rcases hb with rfl | ⟨_ | _, rfl⟩ <;>
    first | exact .inl rfl | exact .inr ⟨_, rfl⟩

theorem blank_sub (ha : IsBlank a) (hb : IsBlank b) : IsBlank (sub format a b) := by
  rcases ha with rfl | ⟨_ | _, rfl⟩ <;> rcases hb with rfl | ⟨_ | _, rfl⟩ <;>
    first | exact .inl rfl | exact .inr ⟨_, rfl⟩

theorem blank_mul_left (ha : IsBlank a) : IsBlank (mul format a b) := by
  rcases ha with rfl | ⟨_, rfl⟩ <;> cases b <;> first | exact .inl rfl | exact .inr ⟨_, rfl⟩

theorem blank_mul_right (hb : IsBlank b) : IsBlank (mul format a b) := by
  rcases hb with rfl | ⟨_, rfl⟩ <;> cases a <;> first | exact .inl rfl | exact .inr ⟨_, rfl⟩

theorem blank_div (ha : IsBlank a) : IsBlank (div format a b) := by
  rcases ha with rfl | ⟨_, rfl⟩ <;> cases b <;> first | exact .inl rfl | exact .inr ⟨_, rfl⟩

theorem blank_abs (ha : IsBlank a) : IsBlank a.abs := by
  rcases ha with rfl | ⟨_, rfl⟩
  · exact .inl rfl
  · exact .inr ⟨_, rfl⟩

theorem nonneg_mul (ha : Nonneg a) (hb : Nonneg b) :
    mul format a b = .notANumber ∨ Nonneg (mul format a b) := by
  rcases a with (_ | _) | _ | _ | ⟨_ | _, _, _, _⟩ <;>
    rcases b with (_ | _) | _ | _ | ⟨_ | _, _, _, _⟩ <;>
    first
      | exact ha.elim
      | exact hb.elim
      | exact .inl rfl
      | exact .inr trivial
      | exact .inr (nonneg_round _ _ _)

theorem nonneg_sqrt (a : UnpackedFloat) : sqrt format a = .notANumber ∨ Nonneg (sqrt format a) := by
  rcases a with (_ | _) | _ | _ | ⟨_ | _, _, _, _⟩ <;>
    first | exact .inl rfl | exact .inr trivial | exact .inr (nonneg_round _ _ _)

/-! ## Doubles -/

variable {x y : Float}

theorem zero_le_iff : Zero.zero ≤ x ↔ Nonneg (parts x) := by
  rw [le_iff, parts_zero]
  rcases parts x with (_ | _) | _ | _ | ⟨_ | _, _, _, _⟩ <;>
    simp [rank, Nonneg, Prod.Lex.toLex_le_toLex]

theorem isNaN_iff : Arithmetic.isNaN x = true ↔ parts x = .notANumber := by
  rw [Arithmetic.isNaN, Bool.not_eq_true', ← Bool.not_eq_true, beq_iff]
  rcases parts x with (_ | _) | _ | _ | ⟨_ | _, _, _, _⟩ <;> simp [rank]

theorem beq_zero_iff : (x == Zero.zero) = true ↔ ∃ s, parts x = .zero s := by
  rw [beq_iff, parts_zero]
  rcases parts x with (_ | _) | _ | _ | ⟨_ | _, _, _, _⟩ <;> simp [rank]

theorem blank_iff : Blank x ↔ IsBlank (parts x) :=
  (or_congr beq_zero_iff isNaN_iff).trans or_comm

theorem isNaN_of_operand {op : UnpackedFloat → UnpackedFloat → UnpackedFloat} {z : Float}
    (hz : parts z = stored (op (parts x) (parts y))) (left : ∀ b, op .notANumber b = .notANumber)
    (right : ∀ a, op a .notANumber = .notANumber)
    (h : Arithmetic.isNaN x = true ∨ Arithmetic.isNaN y = true) : Arithmetic.isNaN z = true := by
  simp only [isNaN_iff] at h ⊢
  rcases h with h | h
  · rw [hz, h, left, stored_notANumber]
  · rw [hz, h, right, stored_notANumber]

theorem parts_of_le_one (h : Zero.zero ≤ x) (h' : x ≤ One.one) : (∃ s, parts x = .zero s) ∨
    ∃ m e, ∃ hm, parts x = .finite .positive m e hm ∧ e ≤ -52 ∧ m ≤ 2 ^ (-e).toNat := by
  have hnonneg := zero_le_iff.1 h
  have hrep := representable_parts x
  have hle := le_iff.1 h'
  rw [parts_one] at hle
  generalize parts x = u at hnonneg hrep hle
  rcases u with (_ | _) | _ | s | ⟨_ | _, m, e, hm⟩
  · exact hnonneg.elim
  · simp [rank, Prod.Lex.toLex_le_toLex] at hle
  · exact hnonneg.elim
  · exact .inl ⟨s, rfl⟩
  · exact hnonneg.elim
  · refine .inr ⟨m, e, hm, rfl, ?_⟩
    simp [rank, Prod.Lex.toLex_le_toLex] at hle
    have hlt : m < 2 ^ 53 := hrep.1
    rcases hle with he | ⟨rfl, hm'⟩
    · have : 2 ^ 53 ≤ 2 ^ (-e).toNat := Nat.pow_le_pow_right (by omega) (by omega)
      omega
    · exact ⟨by omega, hm'⟩

theorem parts_of_pos (h : Zero.zero < x) : parts x = .infinity .positive ∨
    ∃ m e, ∃ hm, parts x = .finite .positive m e hm ∧ -1074 ≤ e := by
  have hrep := representable_parts x
  rw [lt_iff, parts_zero] at h
  generalize parts x = u at hrep h
  rcases u with (_ | _) | _ | s | ⟨_ | _, m, e, hm⟩
  · simp [rank, Prod.Lex.toLex_lt_toLex] at h
  · exact .inl rfl
  · simp [rank] at h
  · simp [rank] at h
  · simp [rank, Prod.Lex.toLex_lt_toLex] at h
  · exact .inr ⟨m, e, hm, rfl, hrep.2.1⟩

theorem parts_of_one_le (h : One.one ≤ x) : parts x = .infinity .positive ∨
    ∃ m e, ∃ hm, parts x = .finite .positive m e hm ∧ -52 ≤ e ∧ 2 ^ 52 ≤ m := by
  have hrep := representable_parts x
  rw [le_iff, parts_one] at h
  generalize parts x = u at hrep h
  rcases u with (_ | _) | _ | s | ⟨_ | _, m, e, hm⟩
  · simp [rank, Prod.Lex.toLex_le_toLex] at h
  · exact .inl rfl
  · simp [rank] at h
  · simp [rank, Prod.Lex.toLex_le_toLex] at h
  · simp [rank, Prod.Lex.toLex_le_toLex] at h
  · refine .inr ⟨m, e, hm, rfl, ?_⟩
    simp [rank, Prod.Lex.toLex_le_toLex] at h
    obtain ⟨-, -, -, hsize⟩ := hrep
    omega

theorem parts_of_nonneg (hx : Zero.zero ≤ x) (hfinite : Arithmetic.isFinite x = true) :
    (∃ s, parts x = .zero s) ∨ ∃ m e, ∃ hm, parts x = .finite .positive m e hm ∧
      m < 2 ^ 53 ∧ -1074 ≤ e ∧ e ≤ 971 ∧ (2 ^ 52 ≤ m ∨ e = -1074) := by
  have hfinite' : (parts x).isFinite = true := hfinite
  have hnonneg := zero_le_iff.1 hx
  have hrep := representable_parts x
  generalize parts x = u at hfinite' hnonneg hrep
  rcases u with _ | _ | s | ⟨_ | _, m, e, hm⟩
  · cases hfinite'
  · cases hfinite'
  · exact .inl ⟨s, rfl⟩
  · exact hnonneg.elim
  · exact .inr ⟨m, e, hm, rfl, hrep⟩

theorem le_mul_of_one_le (hx : Zero.zero ≤ x) (hfinite : Arithmetic.isFinite x = true)
    (hfinite' : Arithmetic.isFinite y = true) (hy : One.one ≤ y) : x ≤ x * y := by
  have hparts : (parts y).isFinite = true := hfinite'
  rw [le_iff, parts_mul]
  rcases parts_of_one_le hy with h' | ⟨m', e', hm', h', he', hle'⟩
  · rw [h'] at hparts
    cases hparts
  rcases parts_of_nonneg hx hfinite with ⟨s, h⟩ | ⟨m, e, hm, h, -, he, -, hsize⟩ <;> rw [h, h']
  · exact ⟨_, _, rfl, congrArg rank (stored_zero _), le_rfl⟩
  · have hlarge : 2 ^ 52 ≤ m * m' := hle'.trans (Nat.le_mul_of_pos_left _ hm)
    -- the exponent of what is at least one is large, or its mantissa makes up for it
    have hmul : m * 2 ^ (e - (e + e')).toNat ≤ m * m' * 2 ^ (e + e' - e).toNat := by
      have hpow : 2 ^ (e - (e + e')).toNat ≤ m' :=
        (Nat.pow_le_pow_right (by omega) (by omega)).trans hle'
      exact (Nat.mul_le_mul_left _ hpow).trans (Nat.le_mul_of_pos_right _ (Nat.two_pow_pos _))
    rcases le_stored_round (Sign.positive * Sign.positive) hm he hsize hlarge hmul with
      hs | ⟨n, d, hn, hs, hcompare⟩
    · simp only [mul, hs]
      exact ⟨_, _, rfl, rfl, by simp [Prod.Lex.toLex_le_toLex]⟩
    · simp only [mul, hs]
      refine ⟨_, _, rfl, rfl, ?_⟩
      simpa [Prod.Lex.toLex_le_toLex] using hcompare

theorem mul_le_of_le_one (hx : Zero.zero ≤ x) (hfinite : Arithmetic.isFinite x = true)
    (hy : Zero.zero ≤ y) (hy' : y ≤ One.one) : x * y ≤ x := by
  rw [le_iff, parts_mul]
  rcases parts_of_nonneg hx hfinite with ⟨s, h⟩ | ⟨m, e, hm, h, hlt, he, hmax, hsize⟩ <;>
    rcases parts_of_le_one hy hy' with ⟨s', h'⟩ | ⟨m', e', hm', h', he', hle'⟩ <;> rw [h, h']
  · exact ⟨_, _, congrArg rank (stored_zero _), rfl, le_rfl⟩
  · exact ⟨_, _, congrArg rank (stored_zero _), rfl, le_rfl⟩
  · exact ⟨_, _, congrArg rank (stored_zero _), rfl, by simp [Prod.Lex.toLex_le_toLex]⟩
  · have hmul : m * m' ≤ m * 2 ^ (e - (e + e')).toNat := by
      rw [show e - (e + e') = -e' by omega]
      exact Nat.mul_le_mul_left _ hle'
    -- what has the least exponent may have few bits, but the product has a smaller one
    have henough : 2 ^ 52 ≤ m * m' ∨ e + e' ≤ -1074 :=
      hsize.imp (fun h => h.trans (Nat.le_mul_of_pos_right _ hm')) fun h => by omega
    rcases stored_round_le (Sign.positive * Sign.positive) (Nat.mul_pos hm hm') hlt he hmax hsize
      (by omega) henough hmul with hs | ⟨n, d, hn, hs, hcompare⟩
    · simp only [mul, hs]
      exact ⟨_, _, rfl, rfl, by simp [Prod.Lex.toLex_le_toLex]⟩
    · simp only [mul, hs]
      refine ⟨_, _, rfl, rfl, ?_⟩
      simpa [Prod.Lex.toLex_le_toLex] using hcompare

theorem mul_le_one (hx : Zero.zero ≤ x) (hx' : x ≤ One.one) (hy : Zero.zero ≤ y)
    (hy' : y ≤ One.one) : x * y ≤ One.one := by
  have hfinite : Arithmetic.isFinite x = true := by
    show (parts x).isFinite = true
    rcases parts_of_le_one hx hx' with ⟨s, h⟩ | ⟨m, e, hm, h, -⟩ <;> rw [h] <;> rfl
  exact LawfulOrder.trans (mul_le_of_le_one hx hfinite hy hy') hx'

theorem mul_pos_of_one_le (hx : Zero.zero < x) (hy : One.one ≤ y) : Zero.zero < x * y := by
  rw [lt_iff, parts_mul, parts_zero]
  rcases parts_of_pos hx with h | ⟨m, e, hm, h, he⟩ <;>
    rcases parts_of_one_le hy with h' | ⟨m', e', hm', h', he', hle'⟩ <;> rw [h, h']
  · exact ⟨_, _, rfl, congrArg rank (stored_infinity .positive), by decide⟩
  · exact ⟨_, _, rfl, congrArg rank (stored_infinity .positive), by decide⟩
  · exact ⟨_, _, rfl, congrArg rank (stored_infinity .positive), by decide⟩
  · have hlarge : 2 ^ 52 ≤ m * m' := hle'.trans (Nat.le_mul_of_pos_left _ hm)
    -- the product is at least the smallest double
    have hmul : 1 * 2 ^ (-1074 - (e + e')).toNat ≤ m * m' * 2 ^ (e + e' - -1074).toNat := by
      calc 1 * 2 ^ (-1074 - (e + e')).toNat = 2 ^ (-1074 - (e + e')).toNat := Nat.one_mul _
        _ ≤ 2 ^ 52 := Nat.pow_le_pow_right (by omega) (by omega)
        _ ≤ m * m' := hlarge
        _ ≤ m * m' * 2 ^ (e + e' - -1074).toNat := Nat.le_mul_of_pos_right _ (Nat.two_pow_pos _)
    rcases le_stored_round (Sign.positive * Sign.positive) one_pos le_rfl (.inr rfl) hlarge hmul
      with hs | ⟨n, d, hn, hs, -⟩
    · simp only [mul, hs]
      exact ⟨_, _, rfl, rfl, by decide⟩
    · simp only [mul, hs]
      exact ⟨_, _, rfl, rfl, by simp [Prod.Lex.toLex_lt_toLex]⟩

theorem add_zero {z : Float} (hx : Arithmetic.isFinite x = true) (hz : (z == Zero.zero) = true) :
    (x + z == x) = true := by
  obtain ⟨s, hz⟩ := beq_zero_iff.1 hz
  have hfin : (parts x).isFinite = true := hx
  have hstored := stored_parts x
  rw [beq_iff, parts_add, hz]
  generalize parts x = u at hfin hstored
  rcases u with _ | _ | s' | ⟨s', m, e, hm⟩
  · cases hfin
  · cases hfin
  · cases s <;> cases s' <;> exact ⟨_, _, rfl, rfl, rfl⟩
  · rw [show add format (.finite s' m e hm) (.zero s) = .finite s' m e hm from rfl, hstored]
    cases s' <;> exact ⟨_, _, rfl, rfl, rfl⟩

theorem mul_zero {z : Float} (hx : Arithmetic.isFinite x = true) (hz : (z == Zero.zero) = true) :
    (x * z == Zero.zero) = true := by
  obtain ⟨s, hz⟩ := beq_zero_iff.1 hz
  have hfin : (parts x).isFinite = true := hx
  rw [beq_zero_iff, parts_mul, hz]
  generalize parts x = u at hfin
  rcases u with _ | _ | s' | ⟨s', m, e, hm⟩
  · cases hfin
  · cases hfin
  · exact ⟨s' * s, stored_zero _⟩
  · exact ⟨s' * s, stored_zero _⟩

theorem mul_nonneg (hx : Zero.zero ≤ x) (hy : Zero.zero ≤ y)
    (h : Arithmetic.isNaN (x * y) = false) : Zero.zero ≤ x * y := by
  rcases nonneg_mul (zero_le_iff.1 hx) (zero_le_iff.1 hy) with hnan | hnonneg
  · have : Arithmetic.isNaN (x * y) = true := by
      rw [isNaN_iff, parts_mul, hnan, stored_notANumber]
    rw [h] at this
    cases this
  · rw [zero_le_iff, parts_mul]
    exact nonneg_stored hnonneg

theorem sqrt_not_neg (x : Float) : ¬Scalar.sqrt x < Zero.zero := by
  intro h
  have hlt := lt_iff.1 h
  rw [parts_sqrt] at hlt
  rcases nonneg_sqrt (parts x) with hnan | hnonneg
  · rw [hnan, stored_notANumber] at hlt
    obtain ⟨_, _, h, -⟩ := hlt
    cases h
  · have hle : Zero.zero ≤ Scalar.sqrt x := by
      rw [zero_le_iff, parts_sqrt]
      exact nonneg_stored hnonneg
    exact LawfulOrder.not_lt_of_le hle h

end Joinery.Double

namespace Joinery

open Double

instance : LawfulArithmetic Float where
  isFinite_zero := rfl
  zero_lt_one := by decide +kernel
  isFinite_one := rfl
  isFinite_between hx hz hxy hyz := by
    obtain ⟨k, hk, hlo, -⟩ := isFinite_iff.1 hx
    obtain ⟨n, hn, -, hhi⟩ := isFinite_iff.1 hz
    obtain ⟨k', l, hk', hl, hkl⟩ := le_iff.1 hxy
    obtain ⟨l', n', hl', hn', hln⟩ := le_iff.1 hyz
    obtain rfl : k = k' := Option.some_inj.1 (hk.symm.trans hk')
    obtain rfl : n = n' := Option.some_inj.1 (hn.symm.trans hn')
    obtain rfl : l = l' := Option.some_inj.1 (hl.symm.trans hl')
    exact isFinite_iff.2 ⟨l, hl, hlo.trans (Prod.Lex.monotone_fst _ _ hkl),
      (Prod.Lex.monotone_fst _ _ hln).trans hhi⟩
  isFinite_add h := finite_of_add (isFinite_of_stored h)
  isFinite_sub h := finite_of_sub (isFinite_of_stored h)
  isFinite_mul h := finite_of_mul (isFinite_of_stored h)
  isNaN_add := isNaN_of_operand (parts_add _ _) (fun _ => rfl) (by rintro (_ | _) <;> rfl)
  isNaN_sub := isNaN_of_operand (parts_sub _ _) (fun _ => rfl) (by rintro (_ | _) <;> rfl)
  isNaN_mul := isNaN_of_operand (parts_mul _ _) (fun _ => rfl) (by rintro (_ | _) <;> rfl)
  isNaN_div := isNaN_of_operand (parts_div _ _) (fun _ => rfl) (by rintro (_ | _) <;> rfl)
  isNaN_abs {x} h := by
    rw [isNaN_iff] at h ⊢
    rw [parts_abs, h]
    rfl
  blank_sub_self x := blank_iff.2 (blank_stored (sub_self _))
  blank_add hx hy := blank_iff.2 (blank_stored (blank_add (blank_iff.1 hx) (blank_iff.1 hy)))
  blank_sub hx hy := blank_iff.2 (blank_stored (blank_sub (blank_iff.1 hx) (blank_iff.1 hy)))
  blank_mul_left hx := blank_iff.2 (blank_stored (blank_mul_left (blank_iff.1 hx)))
  blank_mul_right hy := blank_iff.2 (blank_stored (blank_mul_right (blank_iff.1 hy)))
  blank_div hx := blank_iff.2 (blank_stored (blank_div (blank_iff.1 hx)))
  blank_abs hx := blank_iff.2 (blank_stored (blank_abs (blank_iff.1 hx)))
  add_zero := Double.add_zero
  mul_zero := Double.mul_zero
  mul_nonneg := Double.mul_nonneg
  mul_le_one := Double.mul_le_one
  mul_pos_of_one_le := Double.mul_pos_of_one_le

instance : LawfulGrowth Float where
  le_mul_of_one_le := Double.le_mul_of_one_le
  mul_le_of_le_one := Double.mul_le_of_le_one

instance : LawfulRoot Float where
  isFinite_sqrt h := finite_of_sqrt (isFinite_of_stored h)
  isNaN_sqrt {x} h := by
    rw [isNaN_iff] at h ⊢
    rw [parts_sqrt, h]
    rfl
  sqrt_not_neg := Double.sqrt_not_neg

end Joinery
