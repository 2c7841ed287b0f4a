import Joinery.Dense.Vector
/-!
# Laws of scalars

What statements about the solver assume of its scalars, in five classes. Exact
numbers obey all of them, and so do rounded numbers with infinities and values
that are not numbers: no law says that a sum or a product is the exact one, only
when it is finite, when it is zero and how it compares with one or with a factor.

* `LawfulOrder`: comparisons order the numbers, and are false of what is none.
* `LawfulArithmetic`: the four operations.
* `LawfulGrowth`: what a product is rounded to lies on the side of one factor on which
  the other one lies of one.
* `LawfulRoot`: the square root.
* `LawfulAngles`: sines, cosines and the angle of a point.

A scalar is `Blank` if it is zero or not a number. Whatever is multiplied with a
blank is blank, however large or broken it is, so a column of zeros stays
harmless in any matrix.
-/

namespace Joinery

open Arithmetic

/-- Comparisons order all scalars that equal themselves, and are false of the
others. Two of them that bound each other are equal, as zeros of either sign
are. -/
class LawfulOrder (α : Type) [Arithmetic α] : Prop where
  refl_left {x y : α} : x ≤ y → x ≤ x
  refl_right {x y : α} : x ≤ y → y ≤ y
  trans {x y z : α} : x ≤ y → y ≤ z → x ≤ z
  total {x y : α} : x ≤ x → y ≤ y → x ≤ y ∨ y ≤ x
  lt_iff {x y : α} : x < y ↔ x ≤ y ∧ ¬y ≤ x
  beq_iff {x y : α} : (x == y) = true ↔ x ≤ y ∧ y ≤ x
  refl_of_isFinite {x : α} : isFinite x = true → x ≤ x

/-- A scalar that adds nothing: zero, or not a number. -/
def Blank {α : Type} [Arithmetic α] (x : α) : Prop := (x == 0) = true ∨ isNaN x = true

class LawfulArithmetic (α : Type) [Arithmetic α] : Prop extends LawfulOrder α where
  isFinite_zero : isFinite (0 : α) = true
  zero_lt_one : (0 : α) < 1
  isFinite_one : isFinite (1 : α) = true
  isFinite_between {x y z : α} : isFinite x = true → isFinite z = true → x ≤ y → y ≤ z →
    isFinite y = true
  isFinite_add {x y : α} : isFinite (x + y) = true → isFinite x = true ∧ isFinite y = true
  isFinite_sub {x y : α} : isFinite (x - y) = true → isFinite x = true ∧ isFinite y = true
  isFinite_mul {x y : α} : isFinite (x * y) = true → isFinite x = true ∧ isFinite y = true
  isNaN_add {x y : α} : isNaN x = true ∨ isNaN y = true → isNaN (x + y) = true
  isNaN_sub {x y : α} : isNaN x = true ∨ isNaN y = true → isNaN (x - y) = true
  isNaN_mul {x y : α} : isNaN x = true ∨ isNaN y = true → isNaN (x * y) = true
  isNaN_div {x y : α} : isNaN x = true ∨ isNaN y = true → isNaN (x / y) = true
  isNaN_abs {x : α} : isNaN x = true → isNaN (abs x) = true
  blank_sub_self (x : α) : Blank (x - x)
  blank_add {x y : α} : Blank x → Blank y → Blank (x + y)
  blank_sub {x y : α} : Blank x → Blank y → Blank (x - y)
  blank_mul_left {x y : α} : Blank x → Blank (x * y)
  blank_mul_right {x y : α} : Blank y → Blank (x * y)
  blank_div {x y : α} : Blank x → Blank (x / y)
  blank_abs {x : α} : Blank x → Blank (abs x)
  add_zero {x z : α} : isFinite x = true → (z == 0) = true → (x + z == x) = true
  mul_zero {x z : α} : isFinite x = true → (z == 0) = true → (x * z == 0) = true
  mul_nonneg {x y : α} : 0 ≤ x → 0 ≤ y → isNaN (x * y) = false → 0 ≤ x * y
  mul_le_one {x y : α} : 0 ≤ x → x ≤ 1 → 0 ≤ y → y ≤ 1 → x * y ≤ 1
  mul_pos_of_one_le {x y : α} : 0 < x → 1 ≤ y → 0 < x * y

class LawfulGrowth (α : Type) [Arithmetic α] : Prop extends LawfulArithmetic α where
  le_mul_of_one_le {x y : α} : 0 ≤ x → isFinite x = true → isFinite y = true → 1 ≤ y → x ≤ x * y
  mul_le_of_le_one {x y : α} : 0 ≤ x → isFinite x = true → 0 ≤ y → y ≤ 1 → x * y ≤ x

class LawfulRoot (α : Type) [Scalar α] : Prop extends LawfulArithmetic α where
  isFinite_sqrt {x : α} : isFinite (Scalar.sqrt x) = true → isFinite x = true
  isNaN_sqrt {x : α} : isNaN x = true → isNaN (Scalar.sqrt x) = true
  sqrt_not_neg (x : α) : ¬Scalar.sqrt x < 0

/-- Directions are numbers only for finite angles, and angles only for numbers. -/
class LawfulAngles (α : Type) [Scalar α] : Prop where
  isNaN_sin {x : α} : isFinite x = false → isNaN (Scalar.sin x) = true
  isNaN_cos {x : α} : isFinite x = false → isNaN (Scalar.cos x) = true
  isNaN_atan2 {y x : α} : isNaN y = true ∨ isNaN x = true → isNaN (Scalar.atan2 y x) = true

/-! ## Comparisons -/

namespace LawfulOrder

variable {α : Type} [Arithmetic α] [LawfulOrder α] {x y z : α}

theorem isNaN_eq_false_iff : isNaN x = false ↔ x ≤ x := by
  rw [isNaN, Bool.not_eq_false', beq_iff, and_self]

theorem isNaN_of_isFinite (h : isFinite x = true) : isNaN x = false :=
  isNaN_eq_false_iff.2 (refl_of_isFinite h)

theorem isFinite_of_isNaN (h : isNaN x = true) : isFinite x = false := by
  cases hx : isFinite x with
  | false => rfl
  | true => rw [isNaN_of_isFinite hx] at h; cases h

theorem not_le_of_isNaN (h : isNaN x = true ∨ isNaN y = true) : ¬x ≤ y := by
  intro hxy
  rcases h with h | h
  · rw [isNaN_eq_false_iff.2 (refl_left hxy)] at h
    cases h
  · rw [isNaN_eq_false_iff.2 (refl_right hxy)] at h
    cases h

theorem not_lt_of_isNaN (h : isNaN x = true ∨ isNaN y = true) : ¬x < y :=
  fun hxy => not_le_of_isNaN h (lt_iff.1 hxy).1

theorem le_of_lt (h : x < y) : x ≤ y := (lt_iff.1 h).1

theorem not_lt_of_le (h : x ≤ y) : ¬y < x := fun hyx => (lt_iff.1 hyx).2 h

theorem le_of_not_lt (hx : isNaN x = false) (hy : isNaN y = false) (h : ¬x < y) : y ≤ x := by
  rcases total (isNaN_eq_false_iff.1 hx) (isNaN_eq_false_iff.1 hy) with hle | hle
  · exact Decidable.byContradiction fun hyx => h (lt_iff.2 ⟨hle, hyx⟩)
  · exact hle

theorem lt_of_le_of_lt (h : x ≤ y) (h' : y < z) : x < z :=
  lt_iff.2 ⟨trans h (lt_iff.1 h').1, fun hzx => (lt_iff.1 h').2 (trans hzx h)⟩

theorem lt_of_lt_of_le (h : x < y) (h' : y ≤ z) : x < z :=
  lt_iff.2 ⟨trans (lt_iff.1 h).1 h', fun hzx => (lt_iff.1 h).2 (trans h' hzx)⟩

theorem beq_refl (h : isFinite x = true) : (x == x) = true :=
  beq_iff.2 ⟨refl_of_isFinite h, refl_of_isFinite h⟩

theorem beq_trans (h : (x == y) = true) (h' : (y == z) = true) : (x == z) = true :=
  beq_iff.2 ⟨trans (beq_iff.1 h).1 (beq_iff.1 h').1, trans (beq_iff.1 h').2 (beq_iff.1 h).2⟩

/-- The larger of a number and anything is at least the number. -/
theorem le_max (hy : isNaN y = false) : y ≤ Arithmetic.max x y := by
  unfold Arithmetic.max
  split
  case isTrue => exact isNaN_eq_false_iff.1 hy
  case isFalse hxy =>
    split
    case isTrue => exact isNaN_eq_false_iff.1 hy
    case isFalse hx => exact le_of_not_lt (by simpa using hx) hy hxy

omit [LawfulOrder α] in
theorem max_le (hx : x ≤ z) (hy : y ≤ z) : Arithmetic.max x y ≤ z := by
  unfold Arithmetic.max
  split
  · exact hy
  · split
    · exact hy
    · exact hx

omit [LawfulOrder α] in
theorem le_min (hx : z ≤ x) (hy : z ≤ y) : z ≤ Arithmetic.min x y := by
  unfold Arithmetic.min
  split
  · exact hy
  · split
    · exact hy
    · exact hx

end LawfulOrder

section Zero

variable {α : Type} [Arithmetic α] [LawfulArithmetic α] {x : α}

open LawfulOrder LawfulArithmetic

theorem not_lt_zero_iff (h : isFinite x = true) : ¬x < 0 ↔ 0 ≤ x :=
  ⟨le_of_not_lt (isNaN_of_isFinite h) (isNaN_of_isFinite isFinite_zero), not_lt_of_le⟩

theorem not_le_zero_iff (h : isFinite x = true) : ¬x ≤ 0 ↔ 0 < x := by
  refine ⟨fun hle => ?_, fun hlt => (lt_iff.1 hlt).2⟩
  refine Decidable.byContradiction fun hlt => hle ?_
  exact le_of_not_lt (isNaN_of_isFinite isFinite_zero) (isNaN_of_isFinite h) hlt

end Zero

/-! ## Blanks -/

section Blank

variable {α : Type} [Arithmetic α] [LawfulArithmetic α] {x y : α}

open LawfulOrder LawfulArithmetic

theorem blank_zero : Blank (0 : α) := .inl (beq_refl isFinite_zero)

theorem Blank.beq_zero (h : Blank x) (hf : isFinite x = true) : (x == 0) = true := by
  rcases h with h | h
  · exact h
  · rw [isNaN_of_isFinite hf] at h
    cases h

theorem Blank.isNaN_or_lt (h : Blank x) (hy : 0 < y) : isNaN x = true ∨ x < y := by
  rcases h with h | h
  · exact .inr (lt_of_le_of_lt (beq_iff.1 h).1 hy)
  · exact .inl h

theorem isFinite_of_beq (h : (x == y) = true) (hy : isFinite y = true) : isFinite x = true :=
  isFinite_between hy hy (beq_iff.1 h).2 (beq_iff.1 h).1

/-- A finite number that is moved by a finite share of nothing stays where it is. -/
theorem add_mul_zero {s : α} (hx : isFinite x = true) (hs : isFinite s = true)
    (hy : (y == 0) = true) : (x + s * y == x) = true :=
  add_zero hx (mul_zero hs hy)

/-- A sum of blanks is blank, whatever each is multiplied with. -/
theorem blank_foldl_add {ι : Type} {l : List ι} {f : ι → α} (h : ∀ i ∈ l, Blank (f i)) {first : α}
    (hfirst : Blank first) : Blank (l.foldl (fun sum i => sum + f i) first) := by
  induction l generalizing first with
  | nil => exact hfirst
  | cons i rest ih =>
    rw [List.foldl_cons]
    exact ih (fun k hk => h k (List.mem_cons_of_mem _ hk))
      (blank_add hfirst (h i List.mem_cons_self))

end Blank

end Joinery
