import LoxLexer.Proofs.Binary64.Rounding
import LoxLexer.Proofs.Listing

/-!
# Numbers are rounded once

The number of a token is the double to which the exact value of its lexeme is rounded
(`scan_number_rounded`). The exact value is read off the digits, one by one: in front of the point
a digit counts as many tens as there are digits behind it, behind the point it counts a tenth of
what it would count in the place before (`numeralValue`). Numerals may be of any length and have
zeros anywhere; the decimal that the decoder makes of them has that value
(`Numeral.exists_decimal`), so nothing is rounded before the double is taken.
-/

namespace LoxLexer

/-! ## What numerals denote -/

/-- The number of a digit. -/
def digitValue (c : Char) : ℚ := (c.toNat - '0'.toNat : ℕ)

/-- The number of a row of digits in front of the point. -/
def wholeValue : List Char → ℚ
  | [] => 0
  | c :: cs => digitValue c * 10 ^ cs.length + wholeValue cs

/-- The number of a row of digits behind the point. -/
def fractionValue : List Char → ℚ
  | [] => 0
  | c :: cs => (digitValue c + fractionValue cs) / 10

/-- The number that a numeral denotes. -/
def numeralValue (text : List Char) : ℚ :=
  wholeValue (text.takeWhile (· ≠ '.')) + fractionValue (text.dropWhile (· ≠ '.')).tail

theorem cast_ofDigitChars (digits : List Char) :
    (Nat.ofDigitChars 10 digits 0 : ℚ) = wholeValue digits := by
  induction digits with
  | nil => rfl
  | cons c cs ih =>
      rw [Nat.ofDigitChars_cons, Nat.ofDigitChars_eq_ofDigitChars_zero, wholeValue, ← ih,
        digitValue]
      push_cast
      ring

theorem fractionValue_eq (digits : List Char) :
    fractionValue digits = wholeValue digits / 10 ^ digits.length := by
  induction digits with
  | nil => simp [fractionValue, wholeValue]
  | cons c cs ih =>
      rw [fractionValue, wholeValue, ih, List.length_cons, pow_succ]
      field_simp

theorem ne_point_of_digits {digits : List Char} (hDigits : ∀ c ∈ digits, Digit c) :
    ∀ c ∈ digits, decide (c ≠ '.') = true := by
  intro c hMem
  refine decide_eq_true ?_
  rintro rfl
  exact absurd (hDigits '.' hMem) (by decide)

theorem numeralValue_integer {digits : List Char} (hDigits : ∀ c ∈ digits, Digit c) :
    numeralValue digits = wholeValue digits := by
  have hAll := ne_point_of_digits hDigits
  rw [numeralValue, List.takeWhile_eq_self_iff.2 hAll, List.dropWhile_eq_nil_iff.2 hAll]
  exact add_zero _

theorem numeralValue_fractional {whole : List Char} (hDigits : ∀ c ∈ whole, Digit c)
    (fraction : List Char) :
    numeralValue (whole ++ '.' :: fraction) = wholeValue whole + fractionValue fraction := by
  have hAll := ne_point_of_digits hDigits
  rw [numeralValue, List.takeWhile_append_of_pos hAll, List.dropWhile_append_of_pos hAll]
  simp

/-- **The decimal that is made of a numeral is the number that it denotes.** -/
theorem Numeral.exists_decimal {text : List Char} (hNumeral : Numeral text) :
    ∃ d, Decimal.ofNumeral? text = some d ∧ d.value = numeralValue text := by
  cases hNumeral with
  | integer hSome hDigits =>
      refine ⟨_, ofNumeral?_integer hSome hDigits, ?_⟩
      rw [Decimal.value, cast_ofDigitChars, numeralValue_integer hDigits, pow_zero, div_one]
  | @fractional whole fraction hSome hDigits hSomeAfter hDigitsAfter =>
      refine ⟨_, ofNumeral?_fractional hSome hDigits hSomeAfter hDigitsAfter, ?_⟩
      rw [Decimal.value, numeralValue_fractional hDigits, fractionValue_eq, Nat.ofDigitChars_append,
        Nat.ofDigitChars_eq_ofDigitChars_zero]
      push_cast
      rw [cast_ofDigitChars, cast_ofDigitChars, add_div, mul_div_cancel_left₀ _ (by positivity)]

/-! ## Tokens -/

theorem Kind.Spells.numeral {text : List Char} (hSpells : Kind.number.Spells text) :
    Numeral text := by
  cases hSpells with
  | fixed hText => cases hText
  | number hNumeral => exact hNumeral

/-- Up to half of the smallest positive double, numbers are rounded to zero. -/
theorem Binary64.roundsTo_zero {v : ℚ} (hPositive : 0 ≤ v) (hSmall : v ≤ 2 ^ (-1075 : ℤ)) :
    RoundsTo v ⟨0⟩ := by
  have hHalf : v * one ≤ 1 / 2 := by
    calc v * one ≤ 2 ^ (-1075 : ℤ) * 2 ^ (1074 : ℤ) := by
          rw [cast_one_eq]
          exact mul_le_mul_of_nonneg_right hSmall (by positivity)
      _ = 1 / 2 := by
          rw [← zpow_add₀ two_ne_zero]
          norm_num
  have hUnits : 0 ≤ v * one := mul_nonneg hPositive cast_one_pos.le
  have hRounded : Rounded (v * one) 0 0 := by
    constructor
    · simpa [abs_of_nonneg hUnits] using hHalf
    · exact fun _ => Even.zero
    · rw [pow_zero, div_one]
      exact hHalf.trans_lt (by norm_num)
    · exact .inl rfl
  exact hRounded.roundsTo hPositive rfl

/-- **Numbers are rounded once, from the exact value of the lexeme.** The lexeme of a number is a
numeral, the decoder takes every numeral, and the double of the token is the one to which the value
of the numeral is rounded, which is zero up to half of the smallest positive double. -/
theorem scan_number_rounded (source : String) {t : Token} (hMem : t ∈ (scan source).tokens)
    (hKind : t.kind = .number) :
    Numeral t.lexeme.toList ∧
      (Decimal.ofNumeral? t.lexeme.toList).isSome = true ∧
      ∃ x : Binary64, t.literal = some (.number x) ∧
        Binary64.RoundsTo (numeralValue t.lexeme.toList) x ∧
        (numeralValue t.lexeme.toList ≤ 2 ^ (-1075 : ℤ) → x.bits = 0) := by
  have hScanned := (describes_scan source).scanned t hMem
  cases hScanned with
  | endOfFile => cases hKind
  | lexeme hCarries =>
      rw [hKind] at hCarries
      obtain ⟨hSpells, hLiteral⟩ := carries_iff.1 hCarries
      have hNumeral : Numeral t.lexeme.toList := hSpells.numeral
      obtain ⟨d, hDecimal, hValue⟩ := hNumeral.exists_decimal
      have hRounds := Binary64.roundsTo_nearest d
      rw [hValue] at hRounds
      rw [Literal.ofLexeme?, hDecimal] at hLiteral
      refine ⟨hNumeral, by rw [hDecimal]; rfl, .nearest d, hLiteral.symm, hRounds, fun hSmall => ?_⟩
      have hPositive : 0 ≤ numeralValue t.lexeme.toList := hValue ▸ d.value_nonneg
      rw [hRounds.unique (Binary64.roundsTo_zero hPositive hSmall)]

/-- A number halfway between two doubles. -/
theorem scan_number_halfway :
    (⟨.number, "9007199254740993", some (.number ⟨0x4340000000000000⟩), ⟨0, 16, 1⟩⟩ : Token) ∈
        (scan "9007199254740993").tokens ∧
      Binary64.RoundsTo (numeralValue "9007199254740993".toList) ⟨0x4340000000000000⟩ := by
  have hMem : (⟨.number, "9007199254740993", some (.number ⟨0x4340000000000000⟩), ⟨0, 16, 1⟩⟩ :
      Token) ∈ (scan "9007199254740993").tokens := by decide +kernel
  obtain ⟨-, -, x, hLiteral, hRounds, -⟩ := scan_number_rounded "9007199254740993" hMem rfl
  cases hLiteral
  exact ⟨hMem, hRounds⟩

end LoxLexer
