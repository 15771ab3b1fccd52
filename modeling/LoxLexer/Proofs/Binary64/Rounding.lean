import LoxLexer.Proofs.Binary64.Value
import Mathlib.Algebra.Order.Field.Power
import Mathlib.Data.Nat.Cast.Order.Field
import Mathlib.Tactic.Linarith
import Mathlib.Tactic.Positivity

/-!
# Rounding to the nearest double

What it means that a number is rounded to the nearest double, in terms of values alone
(`RoundsTo`): from halfway behind the largest finite double on the result is infinity, below it no
finite double is closer, and if another one is as close the significand is even. There is one such
double (`RoundsTo.unique`), the numbers that are rounded to it are an interval
(`RoundsTo.between`), and `nearest` finds it (`roundsTo_nearest`).

The quotient that `nearest` rounds is kept to 53 bits, and what is kept is a whole number nearest
the quotient without its low bits (`Rounded`). Doubles of that size or more are whole numbers on
the same scale, and smaller ones lie beyond the smallest of these, so no double is closer.
-/

namespace LoxLexer.Binary64

/-- Halfway between the largest finite double and the power of two behind it. -/
def overflowThreshold : ℚ := 2 ^ 1024 - 2 ^ 970

/-- A double is the one to which a number that is not negative is rounded: infinity from the
threshold on, and below it a finite double than which no finite double is closer, with an even
significand if one of another value is as close. -/
structure RoundsTo (v : ℚ) (x : Binary64) : Prop where
  sign : x.isNegative = false
  overflow : x.bits = 0x7FF0000000000000 ↔ overflowThreshold ≤ v
  finite : v < overflowThreshold → x.isFinite = true
  nearest : v < overflowThreshold → ∀ y : Binary64, y.isFinite = true →
    |x.value - v| ≤ |y.value - v|
  even : v < overflowThreshold → ∀ y : Binary64, y.isFinite = true → y.value ≠ x.value →
    |y.value - v| = |x.value - v| → Even x.significand

/-! ## Whole numbers -/

/-- A whole number within one half of a number is as close as any other. -/
theorem nearest_whole_number {t : ℚ} {kept : Nat} (hNear : |(kept : ℚ) - t| ≤ 1 / 2) (q : Nat) :
    |(kept : ℚ) - t| ≤ |(q : ℚ) - t| ∧
      (|(q : ℚ) - t| = |(kept : ℚ) - t| → q ≠ kept → |(kept : ℚ) - t| = 1 / 2) := by
  by_cases hSame : q = kept
  · rw [hSame]
    exact ⟨le_rfl, fun _ hOther => absurd rfl hOther⟩
  · have hApart : (1 : ℚ) ≤ |(q : ℚ) - kept| := by
      have hInt : (1 : ℤ) ≤ |(q : ℤ) - kept| := Int.one_le_abs (by omega)
      exact_mod_cast hInt
    have hTriangle : |(q : ℚ) - kept| ≤ |(q : ℚ) - t| + |(kept : ℚ) - t| := by
      rw [abs_sub_comm (kept : ℚ) t]
      exact abs_sub_le _ _ _
    constructor
    · linarith
    · intro hTie _
      linarith

/-- **Rounding to a whole number** stays within one half, and at one half takes an even number. -/
theorem roundHalfEven_near (n : Nat) {d : Nat} (hPositive : 0 < d) :
    |(roundHalfEven n d : ℚ) - n / d| ≤ 1 / 2 ∧
      (|(roundHalfEven n d : ℚ) - n / d| = 1 / 2 → Even (roundHalfEven n d)) := by
  have hCast : (0 : ℚ) < d := Nat.cast_pos.2 hPositive
  have hQuotient : (n : ℚ) / d = (n / d : ℕ) + (n % d : ℕ) / d := by
    have hSplit : ((d * (n / d) + n % d : ℕ) : ℚ) = n := by rw [Nat.div_add_mod]
    rw [← hSplit, Nat.cast_add, Nat.cast_mul, add_div, mul_div_cancel_left₀ _ hCast.ne']
  have hHalf (m : Nat) : (m : ℚ) / d ≤ 1 / 2 ↔ 2 * m ≤ d := by
    rw [div_le_div_iff₀ hCast two_pos, one_mul, mul_comm]
    exact_mod_cast Iff.rfl
  have hHalf' (m : Nat) : 1 / 2 ≤ (m : ℚ) / d ↔ d ≤ 2 * m := by
    rw [div_le_div_iff₀ two_pos hCast, one_mul, mul_comm (m : ℚ)]
    exact_mod_cast Iff.rfl
  have hPart : (0 : ℚ) ≤ (n % d : ℕ) / d := by positivity
  have hLess : ((n % d : ℕ) : ℚ) / d < 1 := by
    rw [div_lt_one hCast]
    exact_mod_cast Nat.mod_lt n hPositive
  rw [hQuotient, roundHalfEven]
  by_cases hBelow : 2 * (n % d) < d ∨ 2 * (n % d) = d ∧ n / d % 2 = 0
  · rw [if_pos (by simpa using hBelow), sub_add_cancel_left, abs_neg, abs_of_nonneg hPart, hHalf]
    refine ⟨by omega, fun hTie => ?_⟩
    have hLarge := (hHalf' _).1 hTie.ge
    exact Nat.even_iff.2 (by omega)
  · rw [if_neg (by simpa using hBelow), Nat.cast_add_one, add_sub_add_left_eq_sub,
      abs_of_pos (sub_pos.2 hLess)]
    have hLarge : 1 / 2 ≤ ((n % d : ℕ) : ℚ) / d := (hHalf' _).2 (by omega)
    refine ⟨by linarith, fun hTie => ?_⟩
    have hSmall := (hHalf (n % d)).1 (by linarith)
    exact Nat.even_iff.2 (by omega)

/-! ## What is kept -/

/-- A number `t` is kept as `kept`, without `dropped` of its bits: as the nearest whole number of
`2 ^ dropped`, a half going to the even one. The bits are dropped for want of room. -/
structure Rounded (t : ℚ) (dropped kept : Nat) : Prop where
  near : |kept - t / 2 ^ dropped| ≤ 1 / 2
  even : |kept - t / 2 ^ dropped| = 1 / 2 → Even kept
  fits : t / 2 ^ dropped < 2 ^ 53
  full : dropped = 0 ∨ 2 ^ 52 ≤ t / 2 ^ dropped

/-- **What is put into the bits** is the dropped length and what is kept. -/
theorem exists_rounded (n : Nat) {d : Nat} (hPositive : 0 < d) :
    ∃ dropped kept, Rounded (n / d) dropped kept ∧
      nearestBits n d = min (dropped * 2 ^ 52 + kept) (2047 * 2 ^ 52) := by
  have hCast : (0 : ℚ) < d := Nat.cast_pos.2 hPositive
  generalize hDropped : Nat.log2 (n / d) - 52 = dropped
  have hScale : 0 < d * 2 ^ dropped := Nat.mul_pos hPositive (Nat.two_pow_pos _)
  have hQuotient : (n : ℚ) / d / 2 ^ dropped = n / (d * 2 ^ dropped : ℕ) := by
    rw [div_div]
    push_cast
    rfl
  have hWhole : ((n / d : ℕ) : ℚ) ≤ n / d := Nat.cast_div_le
  have hNext : (n : ℚ) / d < (n / d : ℕ) + 1 := by
    rw [div_lt_iff₀' hCast]
    exact_mod_cast Nat.lt_mul_div_succ n hPositive
  obtain ⟨hNear, hEven⟩ := roundHalfEven_near n hScale
  refine ⟨dropped, roundHalfEven n (d * 2 ^ dropped), ⟨?_, ?_, ?_, ?_⟩,
    nearestBits_eq n d dropped hDropped⟩
  · rw [hQuotient]
    exact hNear
  · rw [hQuotient]
    exact hEven
  · have hRoom : n / d + 1 ≤ 2 ^ 53 * 2 ^ dropped := by
      rw [← Nat.pow_add]
      exact Nat.lt_log2_self.trans_le (Nat.pow_le_pow_right Nat.two_pos (by omega))
    have hRoom' : ((n / d : ℕ) : ℚ) + 1 ≤ 2 ^ 53 * 2 ^ dropped := by exact_mod_cast hRoom
    rw [div_lt_iff₀ (by positivity)]
    exact hNext.trans_le hRoom'
  · by_cases hNone : dropped = 0
    · exact .inl hNone
    · right
      have hSome : n / d ≠ 0 := by
        intro hZero
        rw [hZero] at hDropped
        exact hNone hDropped.symm
      have hFill : 2 ^ 52 * 2 ^ dropped ≤ n / d := by
        rw [← Nat.pow_add, show 52 + dropped = Nat.log2 (n / d) by omega]
        exact Nat.log2_self_le hSome
      have hFill' : (2 : ℚ) ^ 52 * 2 ^ dropped ≤ (n / d : ℕ) := by exact_mod_cast hFill
      rw [le_div_iff₀ (by positivity)]
      exact hFill'.trans hWhole

namespace Rounded

variable {t : ℚ} {dropped kept : Nat}

theorem kept_le (hRounded : Rounded t dropped kept) : kept ≤ 2 ^ 53 := by
  have hNear := (abs_le.1 hRounded.near).2
  have hFits := hRounded.fits
  have hLess : (kept : ℚ) < (2 ^ 53 + 1 : ℕ) := by
    push_cast
    linarith
  exact Nat.lt_succ_iff.1 (Nat.cast_lt.1 hLess)

theorem le_kept (hRounded : Rounded t dropped kept) : dropped = 0 ∨ 2 ^ 52 ≤ kept := by
  refine hRounded.full.imp_right fun hFull => ?_
  have hNear := (abs_le.1 hRounded.near).1
  have hLess : ((2 ^ 52 : ℕ) : ℚ) < (kept + 1 : ℕ) := by
    push_cast
    linarith
  exact Nat.lt_succ_iff.1 (Nat.cast_lt.1 hLess)

theorem kept_eq_zero (hRounded : Rounded 0 dropped kept) : kept = 0 := by
  have hNear := hRounded.near
  rw [zero_div, sub_zero, Nat.abs_cast] at hNear
  by_contra hSome
  have hOne : (1 : ℚ) ≤ kept := by exact_mod_cast Nat.pos_of_ne_zero hSome
  linarith

/-- Where the bits reach an exponent, the number has come halfway to its power of two. -/
theorem le_bits_iff (hRounded : Rounded t dropped kept) (top : Nat) :
    (top + 2) * 2 ^ 52 ≤ dropped * 2 ^ 52 + kept ↔ (2 ^ 53 - 1 / 2) * 2 ^ top ≤ t := by
  have hKept := hRounded.kept_le
  have hScale (n : Nat) : (0 : ℚ) < 2 ^ n := by positivity
  rcases Nat.lt_trichotomy dropped top with hBelow | rfl | hAbove
  · have hLess : t < (2 ^ 53 - 1 / 2) * 2 ^ top := by
      calc t < 2 ^ 53 * 2 ^ dropped := (div_lt_iff₀ (hScale _)).1 hRounded.fits
        _ = 2 ^ 52 * 2 ^ (dropped + 1) := by ring
        _ ≤ 2 ^ 52 * 2 ^ top := by gcongr <;> [norm_num; omega]
        _ ≤ (2 ^ 53 - 1 / 2) * 2 ^ top := by gcongr; norm_num
    exact iff_of_false (by omega) hLess.not_ge
  · rw [← le_div_iff₀ (hScale _)]
    have hNear := abs_le.1 hRounded.near
    constructor
    · intro hBits
      have hCarry : kept = 2 ^ 53 := by omega
      rw [hCarry] at hNear
      push_cast at hNear
      linarith
    · intro hHalf
      by_contra hBits
      have hLarge : ((2 ^ 53 : ℕ) : ℚ) ≤ (kept + 1 : ℕ) := by
        push_cast
        linarith
      have hLast : kept + 1 = 2 ^ 53 := by
        have := Nat.cast_le.1 hLarge
        omega
      have hLast' : (kept : ℚ) + 1 = 2 ^ 53 := by exact_mod_cast hLast
      have hTie : |(kept : ℚ) - t / 2 ^ dropped| = 1 / 2 := by
        rw [abs_of_nonpos (by linarith)]
        linarith
      have hEven := Nat.even_iff.1 (hRounded.even hTie)
      omega
  · have hFull : dropped = 0 ∨ 2 ^ 52 ≤ kept := hRounded.le_kept
    have hMore : (2 ^ 53 - 1 / 2) * 2 ^ top ≤ t := by
      calc (2 ^ 53 - 1 / 2 : ℚ) * 2 ^ top ≤ 2 ^ 53 * 2 ^ top := by gcongr; norm_num
        _ = 2 ^ 52 * 2 ^ (top + 1) := by ring
        _ ≤ 2 ^ 52 * 2 ^ dropped := by gcongr <;> [norm_num; omega]
        _ ≤ t := (le_div_iff₀ (hScale _)).1 (hRounded.full.resolve_left (by omega))
    exact iff_of_true (by omega) hMore

/-- No magnitude is closer than what is kept, and where one is as close, what is kept is even. -/
theorem nearest_magnitude (hRounded : Rounded t dropped kept) (y : Binary64) :
    |(kept * 2 ^ dropped : ℕ) - t| ≤ |y.magnitude - t| ∧
      (|y.magnitude - t| = |(kept * 2 ^ dropped : ℕ) - t| →
        y.magnitude ≠ kept * 2 ^ dropped → Even kept) := by
  have hScale : (0 : ℚ) < 2 ^ dropped := by positivity
  have hUnits (q : Nat) : |((q * 2 ^ dropped : ℕ) : ℚ) - t| =
      |(q : ℚ) - t / 2 ^ dropped| * 2 ^ dropped := by
    rw [← abs_of_pos hScale, ← abs_mul, abs_of_pos hScale, sub_mul, div_mul_cancel₀ _ hScale.ne']
    push_cast
    rfl
  have hWhole (q : Nat) := nearest_whole_number hRounded.near q
  by_cases hMultiple : ∃ q, y.magnitude = q * 2 ^ dropped
  · obtain ⟨q, hMagnitude⟩ := hMultiple
    rw [hMagnitude, hUnits, hUnits]
    refine ⟨mul_le_mul_of_nonneg_right (hWhole q).1 hScale.le, fun hTie hOther => ?_⟩
    have hApart : q ≠ kept := fun hSame => hOther (by rw [hSame])
    exact hRounded.even ((hWhole q).2 (mul_right_cancel₀ hScale.ne' hTie) hApart)
  · -- The number fills 53 bits, so their least multiple is closer than a smaller magnitude.
    have hSmall : y.magnitude < 2 ^ 52 * 2 ^ dropped :=
      (y.magnitude_multiple dropped).resolve_left hMultiple
    have hFull : 2 ^ 52 ≤ t / 2 ^ dropped := by
      refine hRounded.full.resolve_left fun hNone => hMultiple ⟨y.magnitude, ?_⟩
      rw [hNone, Nat.pow_zero, Nat.mul_one]
    have hLeast : ((2 ^ 52 * 2 ^ dropped : ℕ) : ℚ) ≤ t := by
      push_cast
      exact (le_div_iff₀ hScale).1 hFull
    have hCloser : |(kept * 2 ^ dropped : ℕ) - t| < |y.magnitude - t| := by
      calc |((kept * 2 ^ dropped : ℕ) : ℚ) - t|
          ≤ |((2 ^ 52 * 2 ^ dropped : ℕ) : ℚ) - t| := by
            rw [hUnits, hUnits]
            exact mul_le_mul_of_nonneg_right (hWhole (2 ^ 52)).1 hScale.le
        _ = t - (2 ^ 52 * 2 ^ dropped : ℕ) := by
            rw [abs_sub_comm, abs_of_nonneg (sub_nonneg.2 hLeast)]
        _ < t - y.magnitude := sub_lt_sub_left (Nat.cast_lt.2 hSmall) t
        _ ≤ |y.magnitude - t| := by
            rw [abs_sub_comm]
            exact le_abs_self _
    exact ⟨hCloser.le, fun hTie => absurd hTie hCloser.ne'⟩

end Rounded

/-! ## The double that is found -/

/-- The threshold in units. -/
theorem overflowThreshold_eq : overflowThreshold * one = (2 ^ 53 - 1 / 2) * 2 ^ 2045 := by
  have hShape (k m : ℕ) :
      ((2 : ℚ) ^ (k + 54) - 2 ^ k) * 2 ^ m = (2 ^ 53 - 1 / 2) * 2 ^ (k + m + 1) := by ring
  have hUnits : (one : ℚ) = 2 ^ 1074 := cast_one_eq.trans (zpow_natCast 2 1074)
  rw [overflowThreshold, hUnits]
  exact hShape 970 1074

/-- Off zero, a number that is not negative is closer to a magnitude than to its negation. -/
theorem abs_magnitude_sub_le {v : ℚ} (hPositive : 0 ≤ v) (y : Binary64) :
    |(y.magnitude : ℚ) / one - v| ≤ |y.value - v| ∧
      (0 < v → |y.value - v| = |(y.magnitude : ℚ) / one - v| → y.value = y.magnitude / one) := by
  have hSize : (0 : ℚ) ≤ y.magnitude / one := by positivity
  rw [y.value_eq]
  generalize (y.magnitude : ℚ) / one = size at hSize
  split
  case isFalse =>
      rw [one_mul]
      exact ⟨le_rfl, fun _ _ => rfl⟩
  case isTrue =>
      have hSum : |-1 * size - v| = size + v := by
        rw [abs_of_nonpos (by linarith)]
        ring
      rw [hSum]
      refine ⟨abs_sub_le_of_nonneg_of_le hSize (by linarith) hPositive (by linarith), ?_⟩
      intro hAbove hTie
      rcases abs_eq_abs.1 (hTie.symm.trans (abs_of_nonneg (by linarith)).symm) with hSame | hNeg
      · linarith
      · linarith

/-- **What is kept, as bits, is the double to which the number is rounded.** -/
theorem Rounded.roundsTo {v : ℚ} {dropped kept : Nat} {x : Binary64} (hPositive : 0 ≤ v)
    (hRounded : Rounded (v * one) dropped kept)
    (hBits : x.bits.toNat = min (dropped * 2 ^ 52 + kept) (2047 * 2 ^ 52)) : RoundsTo v x := by
  have hUnit := cast_one_pos
  have hSign : x.isNegative = false := by
    rw [isNegative_eq_false_iff]
    omega
  have hOverflow : 2047 * 2 ^ 52 ≤ dropped * 2 ^ 52 + kept ↔ overflowThreshold ≤ v := by
    rw [hRounded.le_bits_iff 2045, ← overflowThreshold_eq, mul_le_mul_iff_left₀ hUnit]
  have hFields (hBelow : v < overflowThreshold) :
      x.abs.bits.toNat = dropped * 2 ^ 52 + kept ∧ x.isFinite = true := by
    have hLess := mt hOverflow.1 hBelow.not_ge
    rw [isFinite_iff, abs_of_not_isNegative hSign]
    omega
  have hValue : x.value = x.magnitude / one := value_of_not_isNegative hSign
  have hUnits (m : ℕ) : |(m : ℚ) / one - v| = |m - v * one| / one := by
    rw [← abs_of_pos hUnit, ← abs_div, abs_of_pos hUnit, sub_div, mul_div_cancel_right₀ _ hUnit.ne']
  have hNearest (hBelow : v < overflowThreshold) (y : Binary64) :
      |x.value - v| ≤ |(y.magnitude : ℚ) / one - v| ∧
        (|(y.magnitude : ℚ) / one - v| = |x.value - v| → y.magnitude ≠ x.magnitude →
          Even kept) := by
    have hMagnitude : x.magnitude = kept * 2 ^ dropped :=
      magnitude_of_bits (hFields hBelow).1 hRounded.kept_le hRounded.le_kept
    obtain ⟨hLess, hEven⟩ := hRounded.nearest_magnitude y
    rw [hValue, hUnits, hUnits, hMagnitude]
    refine ⟨div_le_div_of_nonneg_right hLess hUnit.le, fun hTie => hEven ?_⟩
    exact (div_left_inj' hUnit.ne').1 hTie
  refine ⟨hSign, ?_, fun hBelow => (hFields hBelow).2, ?_, ?_⟩
  · rw [bits_eq_infinity_iff, ← hOverflow]
    omega
  · intro hBelow y _
    exact (hNearest hBelow y).1.trans (abs_magnitude_sub_le hPositive y).1
  · intro hBelow y _ hOther hTie
    have hKept : Even kept := by
      by_cases hZero : v = 0
      · rw [hZero, zero_mul] at hRounded
        rw [hRounded.kept_eq_zero]
        exact Even.zero
      · have hAbove : 0 < v := lt_of_le_of_ne hPositive (Ne.symm hZero)
        obtain ⟨hDistance, hSame⟩ := abs_magnitude_sub_le hPositive y
        obtain ⟨hCloser, hEven⟩ := hNearest hBelow y
        refine hEven (by linarith) fun hMagnitude => hOther ?_
        rw [hSame hAbove (by linarith), hMagnitude, hValue]
    rw [even_significand_iff, (hFields hBelow).1, Nat.even_iff]
    have := Nat.even_iff.1 hKept
    omega

/-- What is kept of a decimal. -/
theorem exists_rounded_nearest (d : Decimal) :
    ∃ dropped kept, Rounded (d.value * one) dropped kept ∧
      (nearest d).bits.toNat = min (dropped * 2 ^ 52 + kept) (2047 * 2 ^ 52) := by
  obtain ⟨dropped, kept, hRounded, hBits⟩ :=
    exists_rounded (d.digits * one) (Nat.pow_pos (n := d.places) (show 0 < 10 by decide))
  have hValue : ((d.digits * one : ℕ) : ℚ) / (10 ^ d.places : ℕ) = d.value * one := by
    rw [Decimal.value]
    push_cast
    ring
  rw [hValue] at hRounded
  refine ⟨dropped, kept, hRounded, ?_⟩
  rw [← hBits]
  refine UInt64.toNat_ofNat_of_lt' ?_
  have hFits : nearestBits (d.digits * one) (10 ^ d.places) ≤ 2047 * 2 ^ 52 := by
    rw [hBits]
    exact Nat.min_le_right _ _
  exact hFits.trans_lt (by decide)

/-- **The double nearest a decimal is the one to which its value is rounded.** -/
theorem roundsTo_nearest (d : Decimal) : RoundsTo d.value (nearest d) := by
  obtain ⟨dropped, kept, hRounded, hBits⟩ := exists_rounded_nearest d
  exact hRounded.roundsTo d.value_nonneg hBits

/-! ## One double for each number -/

/-- Between doubles that do not follow each other lies a third. -/
theorem exists_between {x y : Binary64} (hSign : x.isNegative = false)
    (hSign' : y.isNegative = false) (hFinite : y.isFinite = true)
    (hApart : x.bits.toNat + 1 < y.bits.toNat) :
    ∃ z : Binary64, z.isFinite = true ∧ x.value < z.value ∧ z.value < y.value := by
  have hBound := y.isFinite_iff.1 hFinite
  rw [abs_of_not_isNegative hSign'] at hBound
  have hBits : (UInt64.ofNat (x.bits.toNat + 1)).toNat = x.bits.toNat + 1 :=
    UInt64.toNat_ofNat_of_lt' (lt_trans hApart y.bits.toNat_lt)
  generalize hMiddle : (⟨UInt64.ofNat (x.bits.toNat + 1)⟩ : Binary64) = z
  have hMiddleBits : z.bits.toNat = x.bits.toNat + 1 := by rw [← hMiddle, hBits]
  have hMiddleSign : z.isNegative = false := by
    rw [isNegative_eq_false_iff]
    omega
  refine ⟨z, ?_, value_lt_of_bits_lt hSign hMiddleSign (by omega),
    value_lt_of_bits_lt hMiddleSign hSign' (by omega)⟩
  rw [isFinite_iff, abs_of_not_isNegative hMiddleSign]
  omega

/-- Which of two numbers is closer is told by a product, which is linear in the third. -/
theorem abs_sub_le_iff_product {x y t : ℚ} :
    (|x - t| ≤ |y - t| ↔ 0 ≤ (y - x) * (x + y - 2 * t)) ∧
      (|y - t| = |x - t| ↔ (y - x) * (x + y - 2 * t) = 0) := by
  have hDifference : (y - t) ^ 2 - (x - t) ^ 2 = (y - x) * (x + y - 2 * t) := by ring
  rw [← hDifference]
  constructor
  · exact sq_le_sq.symm.trans sub_nonneg.symm
  · exact (sq_eq_sq_iff_abs_eq_abs _ _).symm.trans sub_eq_zero.symm

/-- A number between two others is no farther from `x` than from `y`, if neither of the two is, and
as far only if one of them is. -/
theorem abs_sub_le_of_between {x y a b v : ℚ} (hLower : |x - a| ≤ |y - a|)
    (hUpper : |x - b| ≤ |y - b|) (hAbove : a ≤ v) (hBelow : v ≤ b) :
    |x - v| ≤ |y - v| ∧ (|y - v| = |x - v| → |y - a| = |x - a| ∨ |y - b| = |x - b|) := by
  simp only [abs_sub_le_iff_product.1, abs_sub_le_iff_product.2] at hLower hUpper ⊢
  rcases le_total x y with hLess | hMore
  · have hStep : 0 ≤ (y - x) * (b - v) := mul_nonneg (sub_nonneg.2 hLess) (sub_nonneg.2 hBelow)
    exact ⟨by linarith, fun hTie => .inr (by linarith)⟩
  · have hStep : 0 ≤ (x - y) * (v - a) := mul_nonneg (sub_nonneg.2 hMore) (sub_nonneg.2 hAbove)
    exact ⟨by linarith, fun hTie => .inl (by linarith)⟩

namespace RoundsTo

variable {a b v : ℚ} {x y : Binary64}

theorem lt_overflowThreshold (hRounds : RoundsTo v x) (hFinite : x.isFinite = true) :
    v < overflowThreshold := by
  by_contra hAbove
  have hInfinity := (bits_eq_infinity_iff x).1 (hRounds.overflow.2 (not_lt.1 hAbove))
  have hBound := x.isFinite_iff.1 hFinite
  rw [abs_of_not_isNegative hRounds.sign] at hBound
  omega

/-- Neither of two doubles to which a number is rounded is the smaller one. -/
theorem bits_le (hRounds : RoundsTo v x) (hRounds' : RoundsTo v y)
    (hBelow : v < overflowThreshold) : y.bits.toNat ≤ x.bits.toNat := by
  by_contra hLess
  have hValue := value_lt_of_bits_lt hRounds.sign hRounds'.sign (not_le.1 hLess)
  have hFinite := hRounds.finite hBelow
  have hFinite' := hRounds'.finite hBelow
  have hTie : |y.value - v| = |x.value - v| :=
    le_antisymm (hRounds'.nearest hBelow x hFinite) (hRounds.nearest hBelow y hFinite')
  -- Both significands are even, so there is a double in between, and it is closer.
  have hEven := hRounds.even hBelow y hFinite' hValue.ne' hTie
  have hEven' := hRounds'.even hBelow x hFinite hValue.ne hTie.symm
  rw [even_significand_iff, abs_of_not_isNegative hRounds.sign, Nat.even_iff] at hEven
  rw [even_significand_iff, abs_of_not_isNegative hRounds'.sign, Nat.even_iff] at hEven'
  obtain ⟨z, hFiniteBetween, hAbove, hUnder⟩ :=
    exists_between hRounds.sign hRounds'.sign hFinite' (by omega)
  have hNearest := hRounds.nearest hBelow z hFiniteBetween
  have hSame : y.value - v = -(x.value - v) := by
    rcases abs_eq_abs.1 hTie with hSame | hNeg
    · linarith
    · exact hNeg
  have hCloser : |z.value - v| < |x.value - v| := by
    rw [abs_of_neg (a := x.value - v) (by linarith), abs_lt]
    constructor
    · linarith
    · linarith
  exact absurd hNearest hCloser.not_ge

/-- **A number is rounded to one double.** -/
theorem unique (hRounds : RoundsTo v x) (hRounds' : RoundsTo v y) : x = y := by
  apply eq_of_toNat_bits_eq
  by_cases hBelow : v < overflowThreshold
  · exact le_antisymm (hRounds'.bits_le hRounds hBelow) (hRounds.bits_le hRounds' hBelow)
  · rw [hRounds.overflow.2 (not_lt.1 hBelow), hRounds'.overflow.2 (not_lt.1 hBelow)]

/-- **The numbers that are rounded to a double are an interval.** -/
theorem between (hFinite : x.isFinite = true) (hLower : RoundsTo a x) (hUpper : RoundsTo b x)
    (hAbove : a ≤ v) (hBelow : v ≤ b) : RoundsTo v x := by
  have hThreshold := hUpper.lt_overflowThreshold hFinite
  have hThreshold' : a < overflowThreshold := hAbove.trans_lt (hBelow.trans_lt hThreshold)
  have hBetween (y : Binary64) (hFinite' : y.isFinite = true) :=
    abs_sub_le_of_between (hLower.nearest hThreshold' y hFinite')
      (hUpper.nearest hThreshold y hFinite') hAbove hBelow
  refine ⟨hLower.sign, ?_, fun _ => hFinite, ?_, ?_⟩
  · rw [hUpper.overflow]
    exact iff_of_false hThreshold.not_ge (hBelow.trans_lt hThreshold).not_ge
  · exact fun _ y hFinite' => (hBetween y hFinite').1
  · intro _ y hFinite' hOther hTie
    rcases (hBetween y hFinite').2 hTie with hTieLower | hTieUpper
    · exact hLower.even hThreshold' y hFinite' hOther hTieLower
    · exact hUpper.even hThreshold y hFinite' hOther hTieUpper

end RoundsTo

end LoxLexer.Binary64
