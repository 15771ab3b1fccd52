import LoxLexer.Proofs.Binary64.Exact
import LoxLexer.Proofs.Description

/-!
# Numbers scan back

The text of a number is a source of its own. If the number is finite, that source is a numeral, or
a minus and a numeral, and the numeral is decoded to the absolute value of the number
(`scan_number_text`). Since a double is its sign and its absolute value, no two finite numbers
share a text.

This puts three things together: the text is the sign and a decimal that rounds to the absolute
value (`Binary64.exists_text_eq`), what is written of a decimal is a numeral that carries it
(`Decimal.carries_text`), and lexemes that are each stopped by the next are what a scan tells
(`describes_scan`).
-/

namespace LoxLexer

/-! ## Numerals -/

/-- A decimal is written as a numeral, whether it has places or not. -/
theorem Decimal.numeral_text (d : Decimal) : Numeral d.text := by
  have hWhole : ∀ n : Nat, ∀ c ∈ Nat.toDigits 10 n, Digit c :=
    fun n c hMem => isDigit_eq_true_iff.1 (isDigit_of_mem_toDigits hMem)
  rw [text]
  split
  case isTrue hNone => exact .integer Nat.toDigits_ne_nil (hWhole _)
  case isFalse hPlaces =>
      have hLength := length_lastDigits (Nat.pos_of_ne_zero hPlaces) d.digits
      have hSomeAfter : lastDigits d.places d.digits ≠ [] := by
        intro hEmpty
        rw [hEmpty] at hLength
        exact hPlaces hLength.symm
      exact .fractional Nat.toDigits_ne_nil (hWhole _) hSomeAfter
        fun c hMem => isDigit_eq_true_iff.1 (isDigit_of_mem_lastDigits hMem)

/-- **A numeral carries the decimal that is written as it.** -/
theorem Decimal.carries_text (d : Decimal) :
    Kind.number.Carries d.text (some (.number (.nearest d))) := by
  rw [carries_iff, Literal.ofLexeme?, ofNumeral?_text]
  exact ⟨.number d.numeral_text, rfl⟩

theorem Numeral.count_lineFeed {text : List Char} (hNumeral : Numeral text) :
    text.count '\n' = 0 :=
  List.count_eq_zero.2 hNumeral.lineFeed_notMem

/-! ## Sources -/

theorem Decimal.complete_text (d : Decimal) :
    (Segment.lexeme .number d.text).Complete [] :=
  (Segment.WellFormed.lexeme (.number d.numeral_text)).complete_nil

/-- A decimal that is a source is one token. -/
theorem scan_decimal (d : Decimal) :
    scan (String.ofList d.text) =
      ⟨[⟨.number, String.ofList d.text, some (.number (.nearest d)),
          ⟨0, Text.byteLength d.text, 1⟩⟩,
        ⟨.endOfFile, "", none, ⟨Text.byteLength d.text, Text.byteLength d.text, 1⟩⟩], []⟩ := by
  have hSegments : Segment.segments d.text = [.lexeme .number d.text] :=
    Segment.segments_eq_iff.2 ⟨List.append_nil _, d.complete_text, trivial⟩
  have hScan := describes_scan (String.ofList d.text)
  rw [String.toList_ofList, hSegments] at hScan
  simpa [lineAfter, d.numeral_text.count_lineFeed] using
    hScan.unique (.lexeme d.carries_text .nil)

/-- A minus in front of it is another token, and the value of the decimal is unchanged. -/
theorem scan_minus_decimal (d : Decimal) :
    scan (String.ofList ('-' :: d.text)) =
      ⟨[⟨.minus, "-", none, ⟨0, 1, 1⟩⟩,
        ⟨.number, String.ofList d.text, some (.number (.nearest d)),
          ⟨1, 1 + Text.byteLength d.text, 1⟩⟩,
        ⟨.endOfFile, "", none,
          ⟨1 + Text.byteLength d.text, 1 + Text.byteLength d.text, 1⟩⟩], []⟩ := by
  have hMinus : (Segment.lexeme .minus ['-']).Complete d.text := ⟨.lexeme (.fixed rfl), trivial⟩
  have hSegments : Segment.segments ('-' :: d.text) =
      [.lexeme .minus ['-'], .lexeme .number d.text] := by
    refine Segment.segments_eq_iff.2 ⟨?_, ?_, d.complete_text, trivial⟩
    · simp [Segment.text]
    · simpa [Segment.text] using hMinus
  have hScan := describes_scan (String.ofList ('-' :: d.text))
  rw [String.toList_ofList, hSegments] at hScan
  have hSize : '-'.utf8Size = 1 := by decide
  simpa [lineAfter, d.numeral_text.count_lineFeed, hSize] using
    hScan.unique (.lexeme (.fixed rfl) (.lexeme d.carries_text .nil))

/-! ## Numbers -/

/-- A finite number that is not negative is written as a decimal that decodes to it. -/
theorem Binary64.text_of_positive {x : Binary64} (hFinite : x.isFinite = true)
    (hSign : x.isNegative = false) : ∃ d : Decimal, Binary64.nearest d = x ∧ x.text = d.text := by
  obtain ⟨d, hNearest, hText⟩ := exists_text_eq hFinite
  rw [hSign] at hText
  exact ⟨d, hNearest.trans (abs_of_not_isNegative hSign), hText⟩

theorem Binary64.text_of_negative {x : Binary64} (hFinite : x.isFinite = true)
    (hSign : x.isNegative = true) :
    ∃ d : Decimal, Binary64.nearest d = x.abs ∧ x.text = '-' :: d.text := by
  obtain ⟨d, hNearest, hText⟩ := exists_text_eq hFinite
  rw [hSign] at hText
  exact ⟨d, hNearest, hText⟩

/-- The sign is told by the first character of the text. -/
theorem Binary64.head?_text {x : Binary64} (hFinite : x.isFinite = true) :
    x.text.head? = some '-' ↔ x.isNegative = true := by
  cases hSign : x.isNegative with
  | true =>
      obtain ⟨d, -, hText⟩ := text_of_negative hFinite hSign
      simp [hText]
  | false =>
      obtain ⟨d, -, hText⟩ := text_of_positive hFinite hSign
      obtain ⟨c, cs, hDecimal, hDigit⟩ := d.numeral_text.exists_digit_cons
      have hOther : c ≠ '-' := by
        rintro rfl
        exact absurd hDigit (by decide)
      simp [hText, hDecimal, hOther]

/-- **Finite doubles that are written alike are the same.** -/
theorem Binary64.eq_of_text_eq {x y : Binary64} (hFinite : x.isFinite = true)
    (hFinite' : y.isFinite = true) (hText : x.text = y.text) : x = y := by
  have hSign : x.isNegative = y.isNegative := by
    rw [Bool.eq_iff_iff, ← head?_text hFinite, ← head?_text hFinite', hText]
  obtain ⟨d, hNearest, hDecimal⟩ := exists_text_eq hFinite
  obtain ⟨d', hNearest', hDecimal'⟩ := exists_text_eq hFinite'
  rw [hDecimal, hDecimal', hSign] at hText
  have hSame : some d = some d' := by
    rw [← Decimal.ofNumeral?_text, List.append_cancel_left hText, Decimal.ofNumeral?_text]
  apply eq_of_abs_eq hSign
  rw [← hNearest, ← hNearest', Option.some.inj hSame]

/-- **Finite numbers scan back.** There is no exponent in the text of a finite number, which scans
without errors: to one number with the bits of the double if the sign bit is clear, and otherwise
to a minus and a number with the bits of the absolute value, so that negative zero comes back as a
minus and zero. No other finite number has the same text. -/
theorem scan_number_text (x : Binary64) (hFinite : x.isFinite = true) :
    (∀ c ∈ (Literal.number x).text, Digit c ∨ c = '.' ∨ c = '-') ∧
    (x.isNegative = false →
      scan (String.ofList (Literal.number x).text) =
        ⟨[⟨.number, String.ofList (Literal.number x).text, some (.number x),
            ⟨0, Text.byteLength (Literal.number x).text, 1⟩⟩,
          ⟨.endOfFile, "", none,
            ⟨Text.byteLength (Literal.number x).text,
              Text.byteLength (Literal.number x).text, 1⟩⟩], []⟩) ∧
    (x.isNegative = true →
      ∃ numeral, (Literal.number x).text = '-' :: numeral ∧
        scan (String.ofList (Literal.number x).text) =
          ⟨[⟨.minus, "-", none, ⟨0, 1, 1⟩⟩,
            ⟨.number, String.ofList numeral, some (.number x.abs),
              ⟨1, 1 + Text.byteLength numeral, 1⟩⟩,
            ⟨.endOfFile, "", none,
              ⟨1 + Text.byteLength numeral, 1 + Text.byteLength numeral, 1⟩⟩], []⟩) ∧
    (∀ y : Binary64, y.isFinite = true →
      (Literal.number y).text = (Literal.number x).text → y = x) := by
  simp only [Literal.text]
  refine ⟨?_, ?_, ?_, ?_⟩
  · intro c hMem
    obtain ⟨d, -, hText⟩ := Binary64.exists_text_eq hFinite
    rw [hText, List.mem_append] at hMem
    rcases hMem with hSign | hDecimal
    · right; right
      split at hSign
      · exact List.mem_singleton.1 hSign
      · exact absurd hSign List.not_mem_nil
    · rcases d.numeral_text.digit_or_dot c hDecimal with hDigit | hDot
      · exact .inl hDigit
      · exact .inr (.inl hDot)
  · intro hSign
    obtain ⟨d, rfl, hText⟩ := Binary64.text_of_positive hFinite hSign
    rw [hText]
    exact scan_decimal d
  · intro hSign
    obtain ⟨d, hNearest, hText⟩ := Binary64.text_of_negative hFinite hSign
    rw [hText, ← hNearest]
    exact ⟨d.text, rfl, scan_minus_decimal d⟩
  · intro y hFinite' hText
    exact Binary64.eq_of_text_eq hFinite' hFinite hText

/-- The zero whose sign bit is set. -/
def Binary64.negativeZero : Binary64 := ⟨0x8000000000000000⟩

theorem Binary64.text_negativeZero : negativeZero.text = ['-', '0', '.', '0'] := by
  have hUnits : negativeZero.magnitude / one = 0 := by
    rw [show negativeZero.magnitude = 0 by decide, Nat.zero_div]
  have hWhole : negativeZero.isWhole = true := by
    rw [isWhole, show negativeZero.magnitude = 0 by decide]
    simp
  have hSign : negativeZero.isNegative = true := by decide
  rw [text, if_neg (by decide), if_neg (by decide), if_pos hWhole, if_pos hSign, hUnits]
  decide

theorem scan_negativeZero :
    Binary64.negativeZero.isFinite = true ∧
      scan "-0.0" =
        ⟨[⟨.minus, "-", none, ⟨0, 1, 1⟩⟩, ⟨.number, "0.0", some (.number ⟨0⟩), ⟨1, 4, 1⟩⟩,
          ⟨.endOfFile, "", none, ⟨4, 4, 1⟩⟩], []⟩ := by
  have hFinite : Binary64.negativeZero.isFinite = true := by decide
  obtain ⟨numeral, hText, hScan⟩ :=
    (scan_number_text Binary64.negativeZero hFinite).2.2.1 (by decide)
  rw [Literal.text, Binary64.text_negativeZero] at hText hScan
  cases hText
  exact ⟨hFinite, hScan⟩

end LoxLexer
