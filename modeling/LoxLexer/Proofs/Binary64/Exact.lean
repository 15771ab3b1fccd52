import LoxLexer.Binary64.Shortest
import Mathlib.Algebra.Group.Nat.Defs

/-!
# Decimals that are doubles

A decimal whose value is a finite double, exactly, decodes to that double (`nearest_of_exact`).
The magnitude of a double is its significand times a power of two, the power is the number of low
bits that rounding drops, and the quotient that is rounded is the significand itself, so nothing
is rounded away and the fields of the double are put together again.

Every text of a finite double is such a decimal or one that was tried before it was taken, so it
decodes to the absolute value (`exists_text_eq`); together with the sign that is the double
(`eq_of_abs_eq`).
-/

namespace LoxLexer.Binary64

/-! ## Fields -/

theorem isNegative_iff (x : Binary64) : x.isNegative = true ↔ x.bits.toNat / 2 ^ 63 = 1 :=
  decide_eq_true_iff

theorem exponent_eq (x : Binary64) : x.exponent = x.bits.toNat / 2 ^ 52 % 2 ^ 11 := rfl

theorem fraction_eq (x : Binary64) : x.fraction = x.bits.toNat % 2 ^ 52 := rfl

theorem fraction_lt (x : Binary64) : x.fraction < 2 ^ 52 :=
  Nat.mod_lt _ (by decide)

theorem exponent_lt_of_isFinite {x : Binary64} (hFinite : x.isFinite = true) :
    x.exponent < 2047 :=
  of_decide_eq_true hFinite

theorem toNat_bits_abs (x : Binary64) : x.abs.bits.toNat = x.bits.toNat % 2 ^ 63 := by
  have hFits : x.bits.toNat % 2 ^ 63 < 2 ^ 64 := by omega
  exact UInt64.toNat_ofNat_of_lt' hFits

/-- Without the sign, the bits of a double are its exponent and its fraction side by side. -/
theorem toNat_bits_abs_eq_fields (x : Binary64) :
    x.abs.bits.toNat = x.exponent * 2 ^ 52 + x.fraction := by
  have hSplit : x.bits.toNat % 2 ^ 63 =
      x.bits.toNat % 2 ^ 52 + 2 ^ 52 * (x.bits.toNat / 2 ^ 52 % 2 ^ 11) :=
    Nat.mod_mul (a := 2 ^ 52) (b := 2 ^ 11)
  rw [toNat_bits_abs, hSplit, exponent_eq, fraction_eq]
  omega

theorem eq_of_toNat_bits_eq {x y : Binary64} (hBits : x.bits.toNat = y.bits.toNat) : x = y := by
  obtain ⟨bits⟩ := x
  congr 1
  exact UInt64.toNat_inj.1 hBits

/-- **A double is its sign and its absolute value.** -/
theorem eq_of_abs_eq {x y : Binary64} (hSign : x.isNegative = y.isNegative)
    (hAbs : x.abs = y.abs) : x = y := by
  apply eq_of_toNat_bits_eq
  have hBits := congrArg (fun z : Binary64 => z.bits.toNat) hAbs
  simp only [toNat_bits_abs] at hBits
  have hx := x.bits.toNat_lt
  have hy := y.bits.toNat_lt
  rw [Bool.eq_iff_iff, isNegative_iff, isNegative_iff] at hSign
  omega

theorem abs_of_not_isNegative {x : Binary64} (hSign : x.isNegative = false) : x.abs = x := by
  apply eq_of_toNat_bits_eq
  have hx := x.bits.toNat_lt
  rw [Bool.eq_false_iff, Ne, isNegative_iff] at hSign
  rw [toNat_bits_abs]
  omega

/-! ## Exact decimals -/

theorem roundHalfEven_mul (q : Nat) {d : Nat} (hPositive : 0 < d) :
    roundHalfEven (q * d) d = q := by
  simp [roundHalfEven, Nat.mul_div_cancel q hPositive, hPositive]

/-- The dropped length and the significand of a double, out of its magnitude. -/
theorem exists_significand (x : Binary64) :
    ∃ significand, x.magnitude = significand * 2 ^ (Nat.log2 x.magnitude - 52) ∧
      (Nat.log2 x.magnitude - 52) * 2 ^ 52 + significand = x.exponent * 2 ^ 52 + x.fraction := by
  have hFraction := x.fraction_lt
  by_cases hSubnormal : x.exponent = 0
  · have hMagnitude : x.magnitude = x.fraction := by rw [magnitude, if_pos hSubnormal]
    have hLog : Nat.log2 x.fraction - 52 = 0 := by
      by_cases hZero : x.fraction = 0
      · rw [hZero]
        decide
      · have := (Nat.log2_lt hZero).2 hFraction
        omega
    refine ⟨x.fraction, ?_, ?_⟩
    · rw [hMagnitude, hLog, Nat.pow_zero, Nat.mul_one]
    · rw [hMagnitude, hLog, hSubnormal]
  · have hMagnitude : x.magnitude = (2 ^ 52 + x.fraction) * 2 ^ (x.exponent - 1) := by
      rw [magnitude, if_neg hSubnormal]
      rfl
    have hLog : Nat.log2 x.magnitude - 52 = x.exponent - 1 := by
      have hPower : 0 < 2 ^ (x.exponent - 1) := Nat.two_pow_pos _
      have hLower : 2 ^ (x.exponent - 1 + 52) ≤ x.magnitude := by
        rw [hMagnitude, Nat.pow_add, Nat.mul_comm]
        exact Nat.mul_le_mul_right _ (by omega)
      have hUpper : x.magnitude < 2 ^ (x.exponent - 1 + 52 + 1) := by
        rw [hMagnitude, Nat.pow_add, Nat.pow_add, Nat.mul_assoc, Nat.mul_comm]
        exact Nat.mul_lt_mul_of_pos_left (by omega) hPower
      have hSome : x.magnitude ≠ 0 := by
        have := Nat.two_pow_pos (x.exponent - 1 + 52)
        omega
      rw [(Nat.log2_eq_iff hSome).2 ⟨hLower, hUpper⟩, Nat.add_sub_cancel]
    refine ⟨2 ^ 52 + x.fraction, ?_, ?_⟩
    · rw [hLog, hMagnitude]
    · rw [hLog]
      have : 0 < x.exponent := Nat.pos_of_ne_zero hSubnormal
      omega

theorem nearestBits_eq (n d dropped : Nat) (hDropped : Nat.log2 (n / d) - 52 = dropped) :
    nearestBits n d =
      min (dropped * 2 ^ 52 + roundHalfEven n (d * 2 ^ dropped)) (2047 * 2 ^ 52) := by
  rw [← hDropped]
  rfl

/-- **A finite double is its own rounding.** -/
theorem nearestBits_magnitude_mul {x : Binary64} (hFinite : x.isFinite = true) {d : Nat}
    (hPositive : 0 < d) : nearestBits (x.magnitude * d) d = x.abs.bits.toNat := by
  obtain ⟨significand, hMagnitude, hFields⟩ := exists_significand x
  have hFraction := x.fraction_lt
  have hExponent := exponent_lt_of_isFinite hFinite
  generalize hDropped : Nat.log2 x.magnitude - 52 = dropped at hMagnitude hFields
  rw [nearestBits_eq _ _ dropped (by rw [Nat.mul_div_cancel _ hPositive, hDropped]),
    toNat_bits_abs_eq_fields]
  have hScaled : x.magnitude * d = significand * (d * 2 ^ dropped) := by
    rw [hMagnitude, Nat.mul_assoc, Nat.mul_comm (2 ^ dropped)]
  rw [hScaled, roundHalfEven_mul _ (Nat.mul_pos hPositive (Nat.two_pow_pos _)), hFields]
  exact Nat.min_eq_left (by omega)

theorem nearest_of_exact {x : Binary64} (hFinite : x.isFinite = true) {d : Decimal}
    (hExact : d.digits * one = x.magnitude * 10 ^ d.places) : nearest d = x.abs := by
  apply eq_of_toNat_bits_eq
  have hPower : Nat.pow 10 d.places = 10 ^ d.places := rfl
  rw [nearest, hPower, hExact, nearestBits_magnitude_mul hFinite (Nat.pow_pos (by decide))]
  exact UInt64.toNat_ofNat_of_lt' x.abs.bits.toNat_lt

theorem nearest_exactDecimal {x : Binary64} (hFinite : x.isFinite = true) :
    nearest x.exactDecimal = x.abs := by
  have hOne : one = Nat.pow 2 1074 := by unfold one; rfl
  unfold exactDecimal
  -- with a variable in its place, no power is computed
  generalize 1074 = places at hOne ⊢
  apply nearest_of_exact hFinite
  show x.magnitude * 5 ^ places * one = x.magnitude * 10 ^ places
  rw [hOne, Nat.pow_eq, Nat.mul_assoc, ← Nat.mul_pow]

theorem nearest_whole {x : Binary64} (hFinite : x.isFinite = true) (hWhole : x.isWhole = true) :
    nearest ⟨10 * (x.magnitude / one), 1⟩ = x.abs := by
  apply nearest_of_exact hFinite
  have hUnits : x.magnitude / one * one = x.magnitude :=
    Nat.div_mul_cancel (Nat.dvd_of_mod_eq_zero (of_decide_eq_true hWhole))
  show 10 * (x.magnitude / one) * one = x.magnitude * 10 ^ 1
  rw [Nat.mul_assoc, hUnits, Nat.pow_one, Nat.mul_comm]

/-! ## Texts -/

/-- What the search for the shortest decimal finds is read back, and so is the exact decimal. -/
theorem nearest_shortest {x : Binary64} (hFinite : x.isFinite = true) :
    nearest x.shortest = x.abs := by
  rw [shortest]
  cases hSearch : (List.range' 1 1074).findSome? x.closest? with
  | none => exact nearest_exactDecimal hFinite
  | some d =>
      obtain ⟨places, -, hFound⟩ := List.exists_of_findSome?_eq_some hSearch
      exact of_decide_eq_true (isRead_of_closest? hFound)

theorem isNaN_of_isFinite {x : Binary64} (hFinite : x.isFinite = true) : x.isNaN = false := by
  have := exponent_lt_of_isFinite hFinite
  simp only [isNaN, Bool.and_eq_false_imp, decide_eq_true_eq]
  omega

/-- **The text of a finite double** is its sign and a decimal that decodes to the absolute
value. -/
theorem exists_text_eq {x : Binary64} (hFinite : x.isFinite = true) :
    ∃ d : Decimal, nearest d = x.abs ∧
      x.text = (if x.isNegative then ['-'] else []) ++ d.text := by
  by_cases hWhole : x.isWhole = true
  · refine ⟨⟨10 * (x.magnitude / one), 1⟩, nearest_whole hFinite hWhole, ?_⟩
    simp [text, isNaN_of_isFinite hFinite, hFinite, hWhole]
  · refine ⟨x.shortest, nearest_shortest hFinite, ?_⟩
    simp [text, isNaN_of_isFinite hFinite, hFinite, hWhole]

end LoxLexer.Binary64
