/-!
# Decimal numerals

A decimal is a natural number of units of `10 ^ -places`. It is read from a numeral, `DIGIT+` with
an optional `'.' DIGIT+`, by keeping every digit: the number of places is the number of digits
after the point, so nothing is lost or normalised. It is written positionally, with exactly its
number of places, and what is written reads back as the same decimal (`ofNumeral?_text`). Powers are
`Nat.pow`, as `^` depends on what is imported.
-/

namespace LoxLexer

/-- The number `digits / 10 ^ places`. -/
structure Decimal where
  digits : Nat
  places : Nat
deriving DecidableEq, Repr

namespace Decimal

/-- Reads `DIGIT+` or `DIGIT+ '.' DIGIT+`. -/
def ofNumeral? (cs : List Char) : Option Decimal :=
  let whole := cs.takeWhile Char.isDigit
  if whole.isEmpty then none
  else match cs.dropWhile Char.isDigit with
    | [] => some ⟨Nat.ofDigitChars 10 whole 0, 0⟩
    | mark :: fraction =>
        if mark = '.' && !fraction.isEmpty && fraction.all Char.isDigit then
          some ⟨Nat.ofDigitChars 10 (whole ++ fraction) 0, fraction.length⟩
        else none

/-- The last `places` digits of a number, led by zeros where it has fewer. -/
def lastDigits (places n : Nat) : List Char :=
  (Nat.toDigits 10 (n % Nat.pow 10 places)).leftpad places '0'

/-- The positional numeral: the integer part without leading zeros, a point, and one digit for
every place; the bare integer if there are no places. -/
def text (d : Decimal) : List Char :=
  if d.places = 0 then Nat.toDigits 10 d.digits
  else Nat.toDigits 10 (d.digits / Nat.pow 10 d.places) ++ '.' :: lastDigits d.places d.digits

/-! ## What is written reads back -/

theorem isDigit_of_mem_toDigits {c : Char} {n : Nat} (hMem : c ∈ Nat.toDigits 10 n) :
    c.isDigit = true :=
  Nat.isDigit_of_mem_toDigits (by decide) (by decide) hMem

theorem isDigit_of_mem_lastDigits {c : Char} {places n : Nat} (hMem : c ∈ lastDigits places n) :
    c.isDigit = true := by
  rw [lastDigits, List.leftpad, List.mem_append] at hMem
  cases hMem with
  | inl hZero =>
      rw [List.eq_of_mem_replicate hZero]
      rfl
  | inr hDigit => exact isDigit_of_mem_toDigits hDigit

theorem length_lastDigits {places : Nat} (hPlaces : 0 < places) (n : Nat) :
    (lastDigits places n).length = places := by
  have hFits : (Nat.toDigits 10 (n % Nat.pow 10 places)).length ≤ places :=
    (Nat.length_toDigits_le_iff (by decide) hPlaces).2 (Nat.mod_lt _ (Nat.pow_pos (by decide)))
  rw [lastDigits, List.length_leftpad]
  omega

theorem ofDigitChars_lastDigits (places n init : Nat) :
    Nat.ofDigitChars 10 (lastDigits places n) init =
      Nat.pow 10 (lastDigits places n).length * init + n % Nat.pow 10 places := by
  rw [Nat.ofDigitChars_eq_ofDigitChars_zero]
  congr 1
  rw [lastDigits, List.leftpad, Nat.ofDigitChars_append, Nat.ofDigitChars_replicate_zero,
    Nat.mul_zero, Nat.ofDigitChars_ten_toDigits]

/-- Digits, and then a character that is none, are told apart. -/
private theorem span_digits (digits rest : List Char) (mark : Char)
    (hDigits : ∀ c ∈ digits, c.isDigit = true) (hMark : mark.isDigit = false) :
    (digits ++ mark :: rest).takeWhile Char.isDigit = digits ∧
      (digits ++ mark :: rest).dropWhile Char.isDigit = mark :: rest := by
  rw [List.takeWhile_append_of_pos hDigits, List.dropWhile_append_of_pos hDigits]
  simp [hMark]

/-- **Reading undoes writing**: the digits and the number of places come back unchanged. -/
theorem ofNumeral?_text (d : Decimal) : ofNumeral? d.text = some d := by
  obtain ⟨digits, places⟩ := d
  by_cases hPlaces : places = 0
  · subst hPlaces
    have hAll : ∀ c ∈ Nat.toDigits 10 digits, c.isDigit = true :=
      fun c hMem => isDigit_of_mem_toDigits hMem
    have hTake : (Nat.toDigits 10 digits).takeWhile Char.isDigit = Nat.toDigits 10 digits := by
      rw [← List.append_nil (Nat.toDigits 10 digits), List.takeWhile_append_of_pos hAll]
      simp
    have hDrop : (Nat.toDigits 10 digits).dropWhile Char.isDigit = [] := by
      rw [← List.append_nil (Nat.toDigits 10 digits), List.dropWhile_append_of_pos hAll]
      simp
    simp [ofNumeral?, text, hTake, hDrop, Nat.toDigits_ne_nil]
  · have hPositive : 0 < places := Nat.pos_of_ne_zero hPlaces
    have hLength := length_lastDigits hPositive digits
    have hNonempty : lastDigits places digits ≠ [] := by
      rw [← List.length_pos_iff, hLength]
      exact hPositive
    have hAll : ∀ c ∈ lastDigits places digits, c.isDigit = true :=
      fun c hMem => isDigit_of_mem_lastDigits hMem
    have hSpan := span_digits (Nat.toDigits 10 (digits / Nat.pow 10 places))
      (lastDigits places digits) '.' (fun c hMem => isDigit_of_mem_toDigits hMem) (by decide)
    have hValue : Nat.ofDigitChars 10
        (Nat.toDigits 10 (digits / Nat.pow 10 places) ++ lastDigits places digits) 0 = digits := by
      rw [Nat.ofDigitChars_append, Nat.ofDigitChars_ten_toDigits, ofDigitChars_lastDigits, hLength]
      exact Nat.div_add_mod digits (Nat.pow 10 places)
    simp only [ofNumeral?, text, if_neg hPlaces, hSpan.1, hSpan.2]
    simpa [-Nat.pow_eq, Nat.toDigits_ne_nil, hNonempty, hValue, hLength] using hAll

end Decimal

end LoxLexer
