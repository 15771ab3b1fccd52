import LoxLexer.Proofs.Binary64.Exact
import Mathlib.Algebra.Field.Rat
import Mathlib.Algebra.Order.Field.Basic
import Mathlib.Algebra.Order.Ring.Unbundled.Rat
import Mathlib.Tactic.FieldSimp
import Mathlib.Tactic.NormNum
import Mathlib.Tactic.Positivity
import Mathlib.Tactic.Ring

/-!
# The values of doubles

The value of a finite double as a rational number, in the terms of the standard: a significand
with a point after its first bit, scaled by a power of two (`value`). The magnitude of the model is
that value in units of `2⁻¹⁰⁷⁴` (`abs_value`), so doubles are compared by natural numbers.

Without the sign, doubles are ordered like their bits (`magnitude_lt_of_bits_lt`), and the parity
of the bits is that of the significand (`even_significand_iff`): of two doubles that follow each
other one is even and the other odd.
-/

namespace LoxLexer

/-- The value of a decimal. -/
def Decimal.value (d : Decimal) : ℚ := d.digits / 10 ^ d.places

theorem Decimal.value_nonneg (d : Decimal) : 0 ≤ d.value := by
  rw [value]
  positivity

/-- Zeros behind the last digit of a decimal do not change its value. -/
theorem Decimal.value_mul_tenPower (m zeros places : Nat) :
    (Decimal.mk (m * 10 ^ zeros) (places + zeros)).value = (Decimal.mk m places).value := by
  rw [value, value, pow_add]
  push_cast
  exact mul_div_mul_right _ _ (by positivity)

namespace Binary64

/-- The value of a finite double. -/
def value (x : Binary64) : ℚ :=
  (if x.isNegative then -1 else 1) *
    if x.exponent = 0 then (x.fraction / 2 ^ 52 : ℚ) * (2 : ℚ) ^ (-1022 : ℤ)
    else (1 + x.fraction / 2 ^ 52 : ℚ) * (2 : ℚ) ^ (x.exponent - 1023 : ℤ)

/-- The significand as a whole number: its leading one, which a subnormal double lacks, and the
fraction. -/
def significand (x : Binary64) : Nat :=
  if x.exponent = 0 then x.fraction else 2 ^ 52 + x.fraction

/-! ## Bits -/

theorem magnitude_eq (x : Binary64) :
    x.magnitude = if x.exponent = 0 then x.fraction
      else (2 ^ 52 + x.fraction) * 2 ^ (x.exponent - 1) := rfl

theorem isFinite_iff (x : Binary64) : x.isFinite = true ↔ x.abs.bits.toNat < 2047 * 2 ^ 52 := by
  have hFraction := x.fraction_lt
  rw [toNat_bits_abs_eq_fields, isFinite, decide_eq_true_iff]
  omega

theorem isNegative_eq_false_iff (x : Binary64) :
    x.isNegative = false ↔ x.bits.toNat < 2 ^ 63 := by
  have hBits := x.bits.toNat_lt
  rw [Bool.eq_false_iff, Ne, isNegative_iff]
  omega

theorem bits_eq_infinity_iff (x : Binary64) :
    x.bits = 0x7FF0000000000000 ↔ x.bits.toNat = 2047 * 2 ^ 52 := by
  rw [← UInt64.toNat_inj]
  exact Iff.rfl

theorem exponent_abs (x : Binary64) : x.abs.exponent = x.exponent := by
  rw [exponent_eq, exponent_eq, toNat_bits_abs]
  omega

theorem fraction_abs (x : Binary64) : x.abs.fraction = x.fraction := by
  rw [fraction_eq, fraction_eq, toNat_bits_abs]
  omega

theorem magnitude_abs (x : Binary64) : x.abs.magnitude = x.magnitude := by
  rw [magnitude_eq, magnitude_eq, exponent_abs, fraction_abs]

theorem isFinite_abs {x : Binary64} (hFinite : x.isFinite = true) : x.abs.isFinite = true := by
  rw [isFinite, exponent_abs]
  exact hFinite

theorem isNegative_abs (x : Binary64) : x.abs.isNegative = false := by
  rw [isNegative_eq_false_iff, toNat_bits_abs]
  exact Nat.mod_lt _ (by decide)

/-! ## Units -/

theorem one_eq : one = Nat.pow 2 1074 := by
  unfold one
  rfl

/-- With a variable as the exponent, no power is computed. -/
theorem exists_one_eq : ∃ places, places = 1074 ∧ one = 2 ^ places := by
  obtain ⟨places, hPlaces, hOne⟩ : ∃ places, places = 1074 ∧ one = Nat.pow 2 places :=
    ⟨1074, rfl, one_eq⟩
  rw [Nat.pow_eq] at hOne
  exact ⟨places, hPlaces, hOne⟩

theorem one_pos : 0 < one := by
  obtain ⟨places, -, hOne⟩ := exists_one_eq
  rw [hOne]
  exact Nat.two_pow_pos places

theorem cast_one_pos : (0 : ℚ) < one := Nat.cast_pos.2 one_pos

theorem cast_one_eq : (one : ℚ) = 2 ^ (1074 : ℤ) := by
  obtain ⟨places, hPlaces, hOne⟩ := exists_one_eq
  rw [hOne, Nat.cast_pow, Nat.cast_ofNat, ← zpow_natCast, hPlaces, Nat.cast_ofNat]

/-- **The value of a double is its magnitude in units**, with the sign. -/
theorem value_eq (x : Binary64) :
    x.value = (if x.isNegative then -1 else 1) * (x.magnitude / one) := by
  have hTwo : (2 : ℚ) ≠ 0 := two_ne_zero
  rw [value]
  congr 1
  rw [eq_div_iff cast_one_pos.ne', cast_one_eq]
  by_cases hSubnormal : x.exponent = 0
  · rw [if_pos hSubnormal, magnitude, if_pos hSubnormal, mul_assoc, ← zpow_add₀ hTwo]
    norm_num
  · have hPositive : 0 < x.exponent := Nat.pos_of_ne_zero hSubnormal
    have hScale : (x.exponent - 1023 : ℤ) + 1074 = ((x.exponent - 1 : ℕ) : ℤ) + 52 := by omega
    rw [if_neg hSubnormal, magnitude, if_neg hSubnormal, mul_assoc, ← zpow_add₀ hTwo, hScale,
      zpow_add₀ hTwo, zpow_natCast]
    simp only [Nat.pow_eq, Nat.cast_mul, Nat.cast_add, Nat.cast_pow, Nat.cast_ofNat]
    field_simp

theorem abs_value (x : Binary64) : |x.value| = x.magnitude / one := by
  have hSize : (0 : ℚ) ≤ x.magnitude / one := by positivity
  rw [value_eq]
  split
  · rw [neg_one_mul, abs_neg, abs_of_nonneg hSize]
  · rw [one_mul, abs_of_nonneg hSize]

theorem value_of_not_isNegative {x : Binary64} (hSign : x.isNegative = false) :
    x.value = x.magnitude / one := by
  rw [value_eq, hSign, if_neg Bool.false_ne_true, one_mul]

theorem value_abs (x : Binary64) : x.abs.value = |x.value| := by
  rw [value_of_not_isNegative x.isNegative_abs, magnitude_abs, abs_value]

/-! ## Order -/

theorem magnitude_lt (x : Binary64) : x.magnitude < 2 ^ 52 * 2 ^ x.exponent := by
  have hFraction := x.fraction_lt
  rw [magnitude_eq]
  split
  case isTrue hSubnormal => simpa [hSubnormal] using hFraction
  case isFalse hSubnormal =>
      have hPower : 2 ^ x.exponent = 2 * 2 ^ (x.exponent - 1) := by
        rw [← Nat.pow_add_one', Nat.sub_add_cancel (Nat.pos_of_ne_zero hSubnormal)]
      rw [hPower, ← Nat.mul_assoc]
      exact Nat.mul_lt_mul_of_pos_right (by omega) (Nat.two_pow_pos _)

theorem le_magnitude {x : Binary64} (hNormal : 0 < x.exponent) :
    2 ^ 52 * 2 ^ (x.exponent - 1) ≤ x.magnitude := by
  rw [magnitude_eq, if_neg hNormal.ne']
  exact Nat.mul_le_mul_right _ (Nat.le_add_right _ _)

/-- **Magnitudes are ordered like bits.** -/
theorem magnitude_lt_of_bits_lt {x y : Binary64} (hBits : x.abs.bits.toNat < y.abs.bits.toNat) :
    x.magnitude < y.magnitude := by
  have hx := x.fraction_lt
  have hy := y.fraction_lt
  rw [toNat_bits_abs_eq_fields, toNat_bits_abs_eq_fields] at hBits
  rcases (by omega : x.exponent ≤ y.exponent).eq_or_lt with hSame | hBelow
  · have hFraction : x.fraction < y.fraction := by omega
    rw [magnitude_eq, magnitude_eq, hSame]
    split
    · exact hFraction
    · exact Nat.mul_lt_mul_of_pos_right (by omega) (Nat.two_pow_pos _)
  · calc x.magnitude < 2 ^ 52 * 2 ^ x.exponent := x.magnitude_lt
      _ ≤ 2 ^ 52 * 2 ^ (y.exponent - 1) :=
          Nat.mul_le_mul_left _ (Nat.pow_le_pow_right Nat.two_pos (by omega))
      _ ≤ y.magnitude := le_magnitude (by omega)

/-- Doubles that are not negative are ordered like their bits. -/
theorem value_lt_of_bits_lt {x y : Binary64} (hSign : x.isNegative = false)
    (hSign' : y.isNegative = false) (hBits : x.bits.toNat < y.bits.toNat) : x.value < y.value := by
  rw [value_of_not_isNegative hSign, value_of_not_isNegative hSign']
  refine div_lt_div_of_pos_right (Nat.cast_lt.2 (magnitude_lt_of_bits_lt ?_)) cast_one_pos
  rwa [abs_of_not_isNegative hSign, abs_of_not_isNegative hSign']

/-- The parity of a significand is that of the bits. -/
theorem even_significand_iff (x : Binary64) : Even x.significand ↔ Even x.abs.bits.toNat := by
  rw [toNat_bits_abs_eq_fields, significand, Nat.even_iff, Nat.even_iff]
  split
  · omega
  · omega

/-- A magnitude is a multiple of a power of two, or too small to fill it up to the leading one. -/
theorem magnitude_multiple (x : Binary64) (dropped : Nat) :
    (∃ kept, x.magnitude = kept * 2 ^ dropped) ∨ x.magnitude < 2 ^ 52 * 2 ^ dropped := by
  rcases Nat.lt_or_ge x.exponent (dropped + 1) with hSmall | hLarge
  · right
    exact x.magnitude_lt.trans_le
      (Nat.mul_le_mul_left _ (Nat.pow_le_pow_right Nat.two_pos (by omega)))
  · left
    refine ⟨(2 ^ 52 + x.fraction) * 2 ^ (x.exponent - 1 - dropped), ?_⟩
    rw [magnitude_eq, if_neg (by omega), Nat.mul_assoc, ← Nat.pow_add,
      Nat.sub_add_cancel (by omega)]

/-- The magnitude of the double that has a dropped length and a significand side by side as its
bits, also where the significand has carried. -/
theorem magnitude_of_bits {x : Binary64} {dropped kept : Nat}
    (hBits : x.abs.bits.toNat = dropped * 2 ^ 52 + kept) (hKept : kept ≤ 2 ^ 53)
    (hFull : dropped = 0 ∨ 2 ^ 52 ≤ kept) : x.magnitude = kept * 2 ^ dropped := by
  have hFraction := x.fraction_lt
  rw [toNat_bits_abs_eq_fields] at hBits
  rw [magnitude_eq]
  rcases Nat.lt_or_ge kept (2 ^ 52) with hSubnormal | hNormal
  · have hDropped : dropped = 0 := hFull.resolve_right (Nat.not_le.2 hSubnormal)
    rw [if_pos (by omega), hDropped, Nat.pow_zero]
    omega
  · rcases hKept.eq_or_lt with hCarry | hFits
    · rw [if_neg (by omega), show x.exponent - 1 = dropped + 1 by omega,
        show x.fraction = 0 by omega, hCarry, Nat.pow_succ]
      ring
    · rw [if_neg (by omega), show x.exponent - 1 = dropped by omega,
        show 2 ^ 52 + x.fraction = kept by omega]

end Binary64

end LoxLexer
