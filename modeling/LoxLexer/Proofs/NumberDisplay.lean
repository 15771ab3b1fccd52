import LoxLexer.Proofs.Binary64.Shortest
import LoxLexer.Proofs.NumberText
import LoxLexer.Proofs.NumberValue
import Mathlib.Data.List.DropRight

/-!
# The display of a number

A finite number is displayed in one way that its value determines (`number_text_canonical`): a whole
number in full, with one zero behind the point, and any other number by the shortest numeral that is
rounded to it, which has no superfluous zeros at either end. Shortest is meant in significant
digits, those from the first to the last one other than zero, of all numerals that are rounded to
the number, and of those with as many digits it is the closest (`ShortestNumeral`).

The search counts places instead (`Binary64.shortest_digits`). A numeral is a row of significant
digits and some zeros behind them, which may be left off (`Decimal.exists_without_zeros`).
-/

namespace LoxLexer

/-- A row of digits without the zeros at either end. -/
def withoutZeros (digits : List Char) : List Char :=
  (digits.dropWhile (· = '0')).rdropWhile (· = '0')

/-- The digits of a numeral from the first to the last one other than zero. -/
def significantDigits (text : List Char) : List Char :=
  withoutZeros (text.filter (· ≠ '.'))

/-- A row of digits with no superfluous zeros in front. -/
structure IntegerPart (digits : List Char) : Prop where
  nonempty : digits ≠ []
  digit : ∀ c ∈ digits, Digit c
  plain : digits.head? = some '0' → digits = ['0']

/-- A numeral is rounded to a double, no other one that is has fewer significant digits, and none
that has as many is closer. -/
structure ShortestNumeral (text : List Char) (x : Binary64) : Prop where
  numeral : Numeral text
  rounds : Binary64.RoundsTo (numeralValue text) x
  fewest : ∀ other, Numeral other → Binary64.RoundsTo (numeralValue other) x →
    (significantDigits text).length ≤ (significantDigits other).length
  closest : ∀ other, Numeral other → Binary64.RoundsTo (numeralValue other) x →
    (significantDigits other).length = (significantDigits text).length →
      |numeralValue text - x.value| ≤ |numeralValue other - x.value|

/-! ## Digits -/

theorem ofDigitChars_cons_zero (c : Char) (cs : List Char) :
    Nat.ofDigitChars 10 (c :: cs) 0 =
      10 ^ cs.length * (c.toNat - '0'.toNat) + Nat.ofDigitChars 10 cs 0 := by
  rw [Nat.ofDigitChars_cons, Nat.ofDigitChars_eq_ofDigitChars_zero, Nat.mul_zero, Nat.zero_add]

theorem Digit.toNat_sub_lt {c : Char} (hDigit : Digit c) : c.toNat - '0'.toNat < 10 := by
  have hLast : c.toNat ≤ '9'.toNat := UInt32.le_iff_toNat_le.1 hDigit.2
  have hNine : '9'.toNat = '0'.toNat + 9 := rfl
  omega

theorem Digit.toNat_sub_pos {c : Char} (hDigit : Digit c) (hOther : c ≠ '0') :
    0 < c.toNat - '0'.toNat := by
  have hFirst : '0'.toNat ≤ c.toNat := UInt32.le_iff_toNat_le.1 hDigit.1
  have hApart : c.toNat ≠ '0'.toNat := fun hSame => hOther (Char.toNat_inj.1 hSame)
  omega

theorem ofDigitChars_lt {digits : List Char} (hDigits : ∀ c ∈ digits, Digit c) :
    Nat.ofDigitChars 10 digits 0 < 10 ^ digits.length := by
  induction digits with
  | nil => exact Nat.one_pos
  | cons c cs ih =>
      obtain ⟨hFirst, hRest⟩ := List.forall_mem_cons.1 hDigits
      have hDigit := hFirst.toNat_sub_lt
      have hLess := ih hRest
      rw [ofDigitChars_cons_zero, List.length_cons, Nat.pow_succ]
      calc 10 ^ cs.length * (c.toNat - '0'.toNat) + Nat.ofDigitChars 10 cs 0
          < 10 ^ cs.length * (c.toNat - '0'.toNat) + 10 ^ cs.length := by omega
        _ = 10 ^ cs.length * (c.toNat - '0'.toNat + 1) := by rw [Nat.mul_succ]
        _ ≤ 10 ^ cs.length * 10 := Nat.mul_le_mul_left _ (by omega)

/-- A row of digits that does not begin with a zero fills its length. -/
theorem le_ofDigitChars {c : Char} {cs : List Char} (hDigit : Digit c) (hOther : c ≠ '0') :
    10 ^ cs.length ≤ Nat.ofDigitChars 10 (c :: cs) 0 := by
  rw [ofDigitChars_cons_zero]
  exact (Nat.le_mul_of_pos_right _ (hDigit.toNat_sub_pos hOther)).trans (Nat.le_add_right _ _)

/-- The positional numeral of a natural number has no superfluous zeros. -/
theorem integerPart_toDigits (n : Nat) : IntegerPart (Nat.toDigits 10 n) := by
  have hDigits : ∀ c ∈ Nat.toDigits 10 n, Digit c :=
    fun c hMem => isDigit_eq_true_iff.1 (Decimal.isDigit_of_mem_toDigits hMem)
  refine ⟨Nat.toDigits_ne_nil, hDigits, fun hZero => ?_⟩
  cases hText : Nat.toDigits 10 n with
  | nil => exact absurd hText Nat.toDigits_ne_nil
  | cons c cs =>
      rw [hText] at hZero hDigits
      cases hZero
      by_contra hMore
      have hSome : 0 < cs.length := by
        refine List.length_pos_iff.2 fun hNone => hMore ?_
        rw [hNone]
      have hValue : n = Nat.ofDigitChars 10 cs 0 := by
        have hRead := Nat.ofDigitChars_ten_toDigits (n := n)
        rw [hText, ofDigitChars_cons_zero, Nat.sub_self, Nat.mul_zero, Nat.zero_add] at hRead
        exact hRead.symm
      have hShort : n < 10 ^ cs.length := by
        rw [hValue]
        exact ofDigitChars_lt fun d hMem => hDigits d (List.mem_cons_of_mem _ hMem)
      have hLength := (Nat.length_toDigits_le_iff (by decide) hSome).2 hShort
      rw [hText, List.length_cons] at hLength
      omega

/-! ## Significant digits -/

/-- A row of digits put together again, the zeros at either end included. -/
theorem exists_eq_zeros_append (digits : List Char) :
    ∃ front back, digits =
      List.replicate front '0' ++ (withoutZeros digits ++ List.replicate back '0') := by
  have hInner : withoutZeros digits ++ (digits.dropWhile (· = '0')).rtakeWhile (· = '0') =
      digits.dropWhile (· = '0') := by
    rw [withoutZeros, List.rdropWhile, List.rtakeWhile, ← List.reverse_append,
      List.takeWhile_append_dropWhile, List.reverse_reverse]
  have hZeros {row : List Char} (hAll : ∀ c ∈ row, c = '0') : List.replicate row.length '0' = row :=
    (List.eq_replicate_of_mem hAll).symm
  refine ⟨(digits.takeWhile (· = '0')).length,
    ((digits.dropWhile (· = '0')).rtakeWhile (· = '0')).length, ?_⟩
  rw [hZeros, hZeros, hInner, List.takeWhile_append_dropWhile]
  · exact fun c hMem => by simpa using List.mem_rtakeWhile_imp hMem
  · exact fun c hMem => by simpa using List.mem_takeWhile_imp hMem

theorem head?_withoutZeros (digits : List Char) : (withoutZeros digits).head? ≠ some '0' := by
  intro hZero
  obtain ⟨back, hKept⟩ := List.rdropWhile_prefix (· = '0') (digits.dropWhile (· = '0'))
  have hHead : (digits.dropWhile (· = '0')).head? = some '0' := by
    rw [← hKept, List.head?_append, show (List.rdropWhile _ _).head? = some '0' from hZero]
    rfl
  have hFirst := head?_dropWhile_fails (· = '0') digits '0' hHead
  exact absurd hFirst (by decide)

/-- What a row of digits amounts to is its significant digits and the zeros behind them. -/
theorem exists_significand_of_digits {digits : List Char} (hDigits : ∀ c ∈ digits, Digit c) :
    ∃ m zeros, Nat.ofDigitChars 10 digits 0 = m * 10 ^ zeros ∧
      m < 10 ^ (withoutZeros digits).length ∧
      (m ≠ 0 → 10 ^ ((withoutZeros digits).length - 1) ≤ m) := by
  obtain ⟨front, back, hSplit⟩ := exists_eq_zeros_append digits
  have hHead := head?_withoutZeros digits
  generalize withoutZeros digits = core at hSplit hHead ⊢
  have hDigitsCore : ∀ c ∈ core, Digit c := by
    intro c hMem
    refine hDigits c ?_
    rw [hSplit]
    exact List.mem_append_right _ (List.mem_append_left _ hMem)
  refine ⟨Nat.ofDigitChars 10 core 0, back, ?_, ofDigitChars_lt hDigitsCore, fun hSome => ?_⟩
  · rw [hSplit, Nat.ofDigitChars_append, Nat.ofDigitChars_replicate_zero, Nat.mul_zero,
      Nat.ofDigitChars_append, Nat.ofDigitChars_replicate_zero, Nat.mul_comm]
  · cases core with
    | nil => exact absurd rfl hSome
    | cons c cs =>
        have hOther : c ≠ '0' := fun hSame => hHead (by rw [hSame, List.head?_cons])
        exact le_ofDigitChars (hDigitsCore c List.mem_cons_self) hOther

theorem filter_ne_point_of_digits {digits : List Char} (hDigits : ∀ c ∈ digits, Digit c) :
    digits.filter (· ≠ '.') = digits :=
  List.filter_eq_self.2 (ne_point_of_digits hDigits)

/-- The digits of the decimal that is made of a numeral are those of the numeral. -/
theorem Numeral.digits_eq {text : List Char} (hNumeral : Numeral text) {d : Decimal}
    (hDecimal : Decimal.ofNumeral? text = some d) :
    (∀ c ∈ text.filter (· ≠ '.'), Digit c) ∧
      d.digits = Nat.ofDigitChars 10 (text.filter (· ≠ '.')) 0 := by
  cases hNumeral with
  | integer hSome hDigits =>
      rw [ofNumeral?_integer hSome hDigits] at hDecimal
      cases hDecimal
      rw [filter_ne_point_of_digits hDigits]
      exact ⟨hDigits, rfl⟩
  | @fractional whole fraction hSome hDigits hSomeAfter hDigitsAfter =>
      rw [ofNumeral?_fractional hSome hDigits hSomeAfter hDigitsAfter] at hDecimal
      cases hDecimal
      rw [List.filter_append, filter_ne_point_of_digits hDigits, List.filter_cons_of_neg (by simp),
        filter_ne_point_of_digits hDigitsAfter]
      exact ⟨List.forall_mem_append.2 ⟨hDigits, hDigitsAfter⟩, rfl⟩

/-- **A numeral in its significant digits**: the decimal that is made of it has as many of them, and
zeros behind them. -/
theorem Numeral.exists_significand {text : List Char} (hNumeral : Numeral text) {d : Decimal}
    (hDecimal : Decimal.ofNumeral? text = some d) :
    ∃ m zeros, d.digits = m * 10 ^ zeros ∧ m < 10 ^ (significantDigits text).length ∧
      (m ≠ 0 → 10 ^ ((significantDigits text).length - 1) ≤ m) := by
  obtain ⟨hDigits, hValue⟩ := hNumeral.digits_eq hDecimal
  rw [hValue]
  exact exists_significand_of_digits hDigits

/-- A decimal without the zeros behind its digits, unless it is a whole number. -/
theorem Decimal.exists_without_zeros {d : Decimal} {m zeros : Nat}
    (hDigits : d.digits = m * 10 ^ zeros) :
    (∃ n : Nat, d.value = n) ∨ ∃ places, d.value = (Decimal.mk m places).value := by
  obtain ⟨digits, places⟩ := d
  rw [show digits = m * 10 ^ zeros from hDigits]
  by_cases hRoom : zeros ≤ places
  · right
    refine ⟨places - zeros, ?_⟩
    rw [← value_mul_tenPower m zeros, Nat.sub_add_cancel hRoom]
  · left
    refine ⟨m * 10 ^ (zeros - places), ?_⟩
    have hPower : 10 ^ zeros = 10 ^ (zeros - places) * 10 ^ places := by
      rw [← Nat.pow_add, Nat.sub_add_cancel (Nat.le_of_not_le hRoom)]
    rw [value, hPower, ← Nat.mul_assoc]
    push_cast
    exact mul_div_cancel_right₀ _ (by positivity)

/-! ## Displays -/

namespace Binary64

theorem isWhole_iff (x : Binary64) : x.isWhole = true ↔ ∃ n : Nat, |x.value| = n := by
  have hUnit := cast_one_pos
  rw [isWhole, decide_eq_true_iff, abs_value]
  constructor
  · intro hNone
    refine ⟨x.magnitude / one, ?_⟩
    rw [div_eq_iff hUnit.ne', ← Nat.cast_mul, Nat.div_mul_cancel (Nat.dvd_of_mod_eq_zero hNone)]
  · rintro ⟨n, hValue⟩
    rw [div_eq_iff hUnit.ne'] at hValue
    rw [show x.magnitude = n * one by exact_mod_cast hValue, Nat.mul_mod_left]

theorem text_of_isWhole {x : Binary64} (hFinite : x.isFinite = true) {n : Nat}
    (hValue : |x.value| = n) :
    x.text = (if x.isNegative then ['-'] else []) ++ (Nat.toDigits 10 n ++ ['.', '0']) := by
  have hWhole : x.isWhole = true := x.isWhole_iff.2 ⟨n, hValue⟩
  have hUnits : x.magnitude / one = n := by
    rw [abs_value, div_eq_iff cast_one_pos.ne'] at hValue
    rw [show x.magnitude = n * one by exact_mod_cast hValue, Nat.mul_div_cancel _ one_pos]
  have hText : (Decimal.mk (10 * n) 1).text = Nat.toDigits 10 n ++ ['.', '0'] := by
    have hZero : Decimal.lastDigits 1 (10 * n) = ['0'] := by
      rw [Decimal.lastDigits, Nat.pow_eq, Nat.pow_one, Nat.mul_mod_right]
      decide
    rw [Decimal.text, if_neg Nat.one_ne_zero, hZero, Nat.pow_eq, Nat.pow_one,
      Nat.mul_div_cancel_left _ (by decide)]
  simp [text, isNaN_of_isFinite hFinite, hFinite, hWhole, hUnits, hText]

theorem text_of_not_isWhole {x : Binary64} (hFinite : x.isFinite = true)
    (hWhole : x.isWhole = false) :
    x.text = (if x.isNegative then ['-'] else []) ++ x.shortest.text := by
  simp [text, isNaN_of_isFinite hFinite, hFinite, hWhole]

section Fractional

variable {x : Binary64} (hFinite : x.isFinite = true) (hWhole : x.isWhole = false)
include hFinite hWhole

/-- A numeral that is rounded to the double has no fewer significant digits than the shortest
decimal has digits, and if it has no more, it is no closer. -/
theorem lt_significantDigits_of_roundsTo {other : List Char} (hNumeral : Numeral other)
    (hRounds : RoundsTo (numeralValue other) x.abs) {k : Nat} (hLower : 10 ^ k ≤ x.shortest.digits)
    (hFew : (significantDigits other).length ≤ k + 1) :
    k < (significantDigits other).length ∧
      |x.shortest.value - x.abs.value| ≤ |numeralValue other - x.abs.value| := by
  obtain ⟨d, hDecimal, hValue⟩ := hNumeral.exists_decimal
  obtain ⟨m, zeros, hDigits, hUpper, -⟩ := hNumeral.exists_significand hDecimal
  rw [← hValue] at hRounds ⊢
  rcases Decimal.exists_without_zeros hDigits with ⟨n, hNatural⟩ | ⟨places, hPlaces⟩
  · exact absurd hNatural (value_ne_of_nearest hFinite hWhole (nearest_eq_iff.2 hRounds) n)
  · rw [hPlaces] at hRounds ⊢
    have hShort : m < 10 ^ (k + 1) := hUpper.trans_le (Nat.pow_le_pow_right (by decide) hFew)
    obtain ⟨hMany, hCloser⟩ :=
      shortest_digits hFinite hWhole (nearest_eq_iff.2 hRounds) hLower hShort
    exact ⟨(Nat.pow_lt_pow_iff_right (by decide)).1 (hMany.trans_lt hUpper), hCloser⟩

/-- **The search finds the shortest numeral.** -/
theorem shortestNumeral_text : ShortestNumeral x.shortest.text x.abs := by
  have hNumeral := x.shortest.numeral_text
  have hNearest := nearest_shortest hFinite
  obtain ⟨d, hDecimal, hValue⟩ := hNumeral.exists_decimal
  obtain ⟨m, zeros, hDigits, hUpper, hLower⟩ := hNumeral.exists_significand hDecimal
  rw [Decimal.ofNumeral?_text] at hDecimal
  cases hDecimal
  have hSome : m ≠ 0 := by
    rintro rfl
    rw [Nat.zero_mul] at hDigits
    exact digits_ne_zero_of_nearest hFinite hWhole hNearest hDigits
  generalize hCount : (significantDigits x.shortest.text).length = count at hUpper hLower
  have hFilled : 10 ^ (count - 1) ≤ x.shortest.digits := by
    rw [hDigits]
    exact (hLower hSome).trans (Nat.le_mul_of_pos_right _ (Nat.pow_pos (by decide)))
  have hPositive : 0 < count := by
    by_contra hNone
    rw [show count = 0 by omega, Nat.pow_zero] at hUpper
    omega
  refine ⟨hNumeral, hValue ▸ nearest_eq_iff.1 hNearest, fun other hOther hRounds => ?_,
    fun other hOther hRounds hSame => ?_⟩
  · by_contra hFewer
    have hDigits' := (lt_significantDigits_of_roundsTo hFinite hWhole hOther hRounds hFilled
      (by omega)).1
    omega
  · rw [← hValue]
    exact (lt_significantDigits_of_roundsTo hFinite hWhole hOther hRounds hFilled (by omega)).2

/-- The shortest decimal has places, and its last digit is not a zero. -/
theorem exists_text_shortest : ∃ whole fraction, x.shortest.text = whole ++ '.' :: fraction ∧
    IntegerPart whole ∧ fraction ≠ [] ∧ (∀ c ∈ fraction, Digit c) ∧
    fraction.getLast? ≠ some '0' := by
  have hPlaces : 0 < x.shortest.places := (shortest_spec hFinite).1
  have hLength := Decimal.length_lastDigits hPlaces x.shortest.digits
  refine ⟨_, _, if_neg hPlaces.ne', integerPart_toDigits _, ?_, ?_, ?_⟩
  · intro hNone
    rw [hNone] at hLength
    exact hPlaces.ne hLength
  · exact fun c hMem => isDigit_eq_true_iff.1 (Decimal.isDigit_of_mem_lastDigits hMem)
  · intro hZero
    obtain ⟨front, hFraction⟩ := List.getLast?_eq_some_iff.1 hZero
    have hValue := Decimal.ofDigitChars_lastDigits x.shortest.places x.shortest.digits 0
    rw [hFraction, Nat.ofDigitChars_append, Nat.mul_zero, Nat.zero_add] at hValue
    have hTen : 10 ∣ x.shortest.digits := by
      refine (Nat.dvd_mod_iff (dvd_pow_self 10 hPlaces.ne')).1 ?_
      exact ⟨_, hValue.symm⟩
    obtain ⟨m, hDigits⟩ := hTen
    refine not_nearest_ten_mul hFinite hWhole m ?_
    rw [← hDigits]
    exact nearest_shortest hFinite

end Fractional

end Binary64

/-- **The display of a finite number is canonical.** Behind the sign, which is a matter of the sign
bit alone, stands the absolute value: of a whole number in full, with one zero behind the point, and
of any other number as the shortest numeral, which ends in a digit other than zero. -/
theorem number_text_canonical (x : Binary64) (hFinite : x.isFinite = true) :
    ((∃ n : Nat, |x.value| = n) →
      ∃ whole, (Literal.number x).text =
          (if x.isNegative then ['-'] else []) ++ (whole ++ ['.', '0']) ∧
        IntegerPart whole ∧ wholeValue whole = |x.value|) ∧
    ((¬∃ n : Nat, |x.value| = n) →
      ∃ whole fraction, (Literal.number x).text =
          (if x.isNegative then ['-'] else []) ++ (whole ++ '.' :: fraction) ∧
        IntegerPart whole ∧ fraction ≠ [] ∧ (∀ c ∈ fraction, Digit c) ∧
        fraction.getLast? ≠ some '0' ∧ ShortestNumeral (whole ++ '.' :: fraction) x.abs) := by
  constructor
  · rintro ⟨n, hValue⟩
    refine ⟨_, Binary64.text_of_isWhole hFinite hValue, integerPart_toDigits n, ?_⟩
    rw [hValue, ← cast_ofDigitChars, Nat.ofDigitChars_ten_toDigits]
  · intro hFractional
    have hWhole : x.isWhole = false := by
      rw [Bool.eq_false_iff, Ne, x.isWhole_iff]
      exact hFractional
    obtain ⟨whole, fraction, hText, hCanonical⟩ := Binary64.exists_text_shortest hFinite hWhole
    have hShortest := Binary64.shortestNumeral_text hFinite hWhole
    rw [hText] at hShortest
    refine ⟨whole, fraction, ?_, hCanonical.1, hCanonical.2.1, hCanonical.2.2.1, hCanonical.2.2.2,
      hShortest⟩
    rw [← hText]
    exact Binary64.text_of_not_isWhole hFinite hWhole

/-- Three tenths, with the sign bit set. -/
theorem number_text_three_tenths :
    (⟨0xBFD3333333333333⟩ : Binary64).isFinite = true ∧
      (Literal.number ⟨0xBFD3333333333333⟩).text = ['-', '0', '.', '3'] ∧
      ShortestNumeral ['0', '.', '3'] ⟨0x3FD3333333333333⟩ := by
  have hFinite : (⟨0xBFD3333333333333⟩ : Binary64).isFinite = true := by decide
  have hText : (Literal.number ⟨0xBFD3333333333333⟩).text = ['-', '0', '.', '3'] := by
    decide +kernel
  have hFractional : ¬∃ n : Nat, |(⟨0xBFD3333333333333⟩ : Binary64).value| = n := by
    rw [← Binary64.isWhole_iff]
    decide +kernel
  obtain ⟨whole, fraction, hDisplay, -, -, -, -, hShortest⟩ :=
    (number_text_canonical ⟨0xBFD3333333333333⟩ hFinite).2 hFractional
  have hNumeral : whole ++ '.' :: fraction = ['0', '.', '3'] := by
    rw [hText] at hDisplay
    exact (List.cons.inj hDisplay).2.symm
  rw [hNumeral] at hShortest
  exact ⟨hFinite, hText, hShortest⟩

end LoxLexer
