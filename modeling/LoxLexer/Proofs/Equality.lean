import LoxLexer.Proofs.Binary64.Exact
import LoxLexer.Proofs.Listing
import LoxLexer.Scan.Comparison

/-!
# Equality of scans

Scans are compared value by value, and numbers are compared as numbers. In general that is not
equality: a NaN differs from itself, and the two zeros are equal. But rounding a numeral never
brings a NaN or a sign, since its bits are at most those of infinity
(`Binary64.toNat_bits_nearest_le`), and for such doubles equality as numbers is equality of bits
(`Binary64.equals_iff_of_le`).

A literal is moreover made from the kind and the lexeme of its token alone, so it never decides
whether two tokens are equal (`Token.Scanned.equals_iff`): kind, lexeme and span do.
-/

namespace LoxLexer

namespace Binary64

/-! ## Doubles up to infinity -/

/-- **Rounding ends at infinity**: no bits are larger than its, so the sign and the NaNs are out of
reach. -/
theorem toNat_bits_nearest_le (d : Decimal) : (nearest d).bits.toNat ≤ 2047 * 2 ^ 52 := by
  have hLe : nearestBits (d.digits * one) (Nat.pow 10 d.places) ≤ 2047 * 2 ^ 52 := by
    rw [nearestBits_eq _ _ _ rfl]
    exact Nat.min_le_right _ _
  have hFits : nearestBits (d.digits * one) (Nat.pow 10 d.places) < 2 ^ 64 :=
    Nat.lt_of_le_of_lt hLe (by decide)
  have hBits : (nearest d).bits.toNat = nearestBits (d.digits * one) (Nat.pow 10 d.places) :=
    UInt64.toNat_ofNat_of_lt' hFits
  rw [hBits]
  exact hLe

theorem isNegative_of_le {x : Binary64} (hBits : x.bits.toNat ≤ 2047 * 2 ^ 52) :
    x.isNegative = false := by
  rw [Bool.eq_false_iff, Ne, isNegative_iff]
  omega

theorem isNaN_of_le {x : Binary64} (hBits : x.bits.toNat ≤ 2047 * 2 ^ 52) : x.isNaN = false := by
  have hExponent := x.exponent_eq
  have hFraction := x.fraction_eq
  simp only [isNaN, Bool.and_eq_false_imp, decide_eq_true_eq, decide_eq_false_iff_not, not_not]
  omega

/-- Without a sign and without NaNs, **equality as numbers is equality of bits**. -/
theorem equals_iff_of_le {x y : Binary64} (hFirst : x.bits.toNat ≤ 2047 * 2 ^ 52)
    (hSecond : y.bits.toNat ≤ 2047 * 2 ^ 52) : x.equals y = true ↔ x.bits = y.bits := by
  have hSame : x = y ↔ x.bits = y.bits :=
    ⟨congrArg bits, fun hBits => eq_of_toNat_bits_eq (congrArg UInt64.toNat hBits)⟩
  simp only [equals, isNaN_of_le hFirst, isNaN_of_le hSecond,
    abs_of_not_isNegative (isNegative_of_le hFirst),
    abs_of_not_isNegative (isNegative_of_le hSecond), Bool.not_false, Bool.true_and,
    Bool.or_eq_true, Bool.and_eq_true, decide_eq_true_eq, hSame]
  constructor
  · intro hEqual
    cases hEqual with
    | inl hBits => exact hBits
    | inr hZeros => rw [hZeros.1, hZeros.2]
  · exact Or.inl

end Binary64

/-! ## Tokens of scans -/

namespace Token.Scanned

variable {t u : Token}

/-- A number in a scan is rounded from a numeral. -/
theorem toNat_bits_le (hScanned : t.Scanned) {x : Binary64}
    (hLiteral : t.literal = some (.number x)) : x.bits.toNat ≤ 2047 * 2 ^ 52 := by
  cases hScanned with
  | endOfFile => cases hLiteral
  | lexeme hCarries =>
      rw [hLiteral] at hCarries
      generalize t.kind = kind at hCarries
      generalize t.lexeme.toList = text at hCarries
      cases hCarries with
      | integer _ _ => exact Binary64.toNat_bits_nearest_le _
      | fractional _ _ _ _ => exact Binary64.toNat_bits_nearest_le _

/-- **The literal of a token is decided by its kind and its lexeme.** -/
theorem literal_eq (hFirst : t.Scanned) (hSecond : u.Scanned) (hKind : t.kind = u.kind)
    (hLexeme : t.lexeme = u.lexeme) : t.literal = u.literal := by
  cases hFirst with
  | lexeme hCarries =>
      cases hSecond with
      | lexeme hCarries' =>
          rw [← ofLexeme?_of_carries hCarries, ← ofLexeme?_of_carries hCarries', hKind, hLexeme]
      | endOfFile =>
          rw [hKind] at hCarries
          exact absurd hCarries.spells Kind.not_spells_endOfFile
  | endOfFile =>
      cases hSecond with
      | lexeme hCarries' =>
          rw [← hKind] at hCarries'
          exact absurd hCarries'.spells Kind.not_spells_endOfFile
      | endOfFile => rfl

/-- Literals of scans are compared as if they were compared bit by bit. -/
theorem literalEquals_iff (hFirst : t.Scanned) (hSecond : u.Scanned) :
    t.literalEquals u = true ↔ t.literal = u.literal := by
  unfold literalEquals
  split
  case h_1 x y hLiteral hLiteral' =>
      rw [hLiteral, hLiteral', Option.some.injEq]
      cases x with
      | string body =>
          cases y with
          | string body' => simp [Literal.equals]
          | number y => simp [Literal.equals]
      | number x =>
          cases y with
          | string body' => simp [Literal.equals]
          | number y =>
              have hBits := Binary64.equals_iff_of_le (hFirst.toNat_bits_le hLiteral)
                (hSecond.toNat_bits_le hLiteral')
              rw [Literal.equals, hBits, Literal.number.injEq]
              constructor
              · intro hSame
                exact Binary64.eq_of_toNat_bits_eq (congrArg UInt64.toNat hSame)
              · exact congrArg Binary64.bits
  case h_2 hLiteral hLiteral' => simp [hLiteral, hLiteral']
  case h_3 hBoth hNone =>
      refine iff_of_false Bool.false_ne_true ?_
      intro hSame
      cases hLiteral : t.literal with
      | none => exact hNone hLiteral (hSame.symm.trans hLiteral)
      | some x => exact hBoth x x hLiteral (hSame.symm.trans hLiteral)

/-- **Tokens are equal if they agree in kind, lexeme and span.** -/
theorem equals_iff (hFirst : t.Scanned) (hSecond : u.Scanned) :
    t.equals u = true ↔ (t.kind, t.lexeme, t.span) = (u.kind, u.lexeme, u.span) := by
  simp only [Token.equals, Bool.and_eq_true, decide_eq_true_eq, Prod.mk.injEq,
    hFirst.literalEquals_iff hSecond]
  constructor
  · intro hEqual
    obtain ⟨⟨⟨hKind, hLexeme⟩, -⟩, hSpan⟩ := hEqual
    exact ⟨hKind, hLexeme, hSpan⟩
  · intro hAgree
    obtain ⟨hKind, hLexeme, hSpan⟩ := hAgree
    exact ⟨⟨⟨hKind, hLexeme⟩, hFirst.literal_eq hSecond hKind hLexeme⟩, hSpan⟩

end Token.Scanned

/-! ## Rows of tokens -/

/-- What of a token decides which tokens it is equal to. -/
def Token.outline (t : Token) : Kind × String × Span := (t.kind, t.lexeme, t.span)

theorem equals_rows_iff {ts us : List Token} (hFirst : ∀ t ∈ ts, t.Scanned)
    (hSecond : ∀ u ∈ us, u.Scanned) :
    (ts.length = us.length ∧ ∀ pair ∈ ts.zip us, pair.1.equals pair.2 = true) ↔
      ts.map Token.outline = us.map Token.outline := by
  induction ts generalizing us with
  | nil =>
      cases us with
      | nil => simp
      | cons u us => simp
  | cons t ts ih =>
      cases us with
      | nil => simp
      | cons u us =>
          obtain ⟨hHere, hLater⟩ := List.forall_mem_cons.1 hFirst
          obtain ⟨hHere', hLater'⟩ := List.forall_mem_cons.1 hSecond
          have hEquals : t.equals u = true ↔ t.outline = u.outline := hHere.equals_iff hHere'
          rw [List.map_cons, List.map_cons, List.cons.injEq, ← ih hLater hLater', ← hEquals,
            List.zip_cons_cons, List.forall_mem_cons, List.length_cons, List.length_cons,
            Nat.add_right_cancel_iff]
          exact and_left_comm

theorem tokensEqual_iff (a b : String) :
    (scan a).tokensEqual (scan b) = true ↔
      (scan a).tokens.map Token.outline = (scan b).tokens.map Token.outline := by
  rw [← equals_rows_iff (describes_scan a).scanned (describes_scan b).scanned]
  simp only [Scan.tokensEqual, Bool.and_eq_true, decide_eq_true_eq, List.all_eq_true]

theorem equals_scan_iff (a b : String) :
    (scan a).equals (scan b) = true ↔
      (scan a).tokens.map Token.outline = (scan b).tokens.map Token.outline ∧
        (scan a).errors = (scan b).errors := by
  rw [Scan.equals, Bool.and_eq_true, tokensEqual_iff, Scan.errorsEqual, decide_eq_true_eq]

/-- **Equality of scans is an equivalence that literals never decide.** No number in a scan is a NaN
or has a sign, so each scan is equal to itself, and two numbers of scans are equal exactly if their
bits are. Tokens of the same kind and the same lexeme carry the same literal, wherever they stand,
and so the tokens of two sources are equal exactly if they agree in kind, lexeme and span. -/
theorem scan_equality :
    Equivalence (fun a b : String => (scan a).equals (scan b) = true) ∧
    (∀ source, ∀ t ∈ (scan source).tokens, ∀ x, t.literal = some (.number x) →
      x.isNaN = false ∧ x.isNegative = false) ∧
    ∀ a b : String,
      (∀ t ∈ (scan a).tokens, ∀ u ∈ (scan b).tokens,
        (∀ x y, t.literal = some (.number x) → u.literal = some (.number y) →
          (x.equals y = true ↔ x.bits = y.bits)) ∧
        (t.kind = u.kind → t.lexeme = u.lexeme →
          t.literal = u.literal ∧ t.literalEquals u = true)) ∧
      ((scan a).tokensEqual (scan b) = true ↔
        (scan a).tokens.map (fun t => (t.kind, t.lexeme, t.span)) =
          (scan b).tokens.map fun t => (t.kind, t.lexeme, t.span)) := by
  have hScanned (source : String) := (describes_scan source).scanned
  refine ⟨?_, ?_, ?_⟩
  · simp only [equals_scan_iff]
    constructor
    case refl => exact fun a => ⟨rfl, rfl⟩
    case symm => exact fun hSame => ⟨hSame.1.symm, hSame.2.symm⟩
    case trans =>
        exact fun hSame hSame' => ⟨hSame.1.trans hSame'.1, hSame.2.trans hSame'.2⟩
  · intro source t hMem x hLiteral
    have hBits := (hScanned source t hMem).toNat_bits_le hLiteral
    exact ⟨Binary64.isNaN_of_le hBits, Binary64.isNegative_of_le hBits⟩
  · intro a b
    refine ⟨?_, tokensEqual_iff a b⟩
    intro t hMem u hMem'
    have hFirst := hScanned a t hMem
    have hSecond := hScanned b u hMem'
    constructor
    · intro x y hLiteral hLiteral'
      exact Binary64.equals_iff_of_le (hFirst.toNat_bits_le hLiteral)
        (hSecond.toNat_bits_le hLiteral')
    · intro hKind hLexeme
      have hSame := hFirst.literal_eq hSecond hKind hLexeme
      exact ⟨hSame, (hFirst.literalEquals_iff hSecond).2 hSame⟩

/-- A zero and a longer zero are equal numbers in tokens that are not equal, and the number of
`" 0.0"` is that of `"0.0"` one byte further on. -/
theorem scan_equality_zeros :
    let zero : Token := ⟨.number, "0.0", some (.number (.nearest ⟨0, 1⟩)), ⟨0, 3, 1⟩⟩
    let later : Token := ⟨.number, "0.0", some (.number (.nearest ⟨0, 1⟩)), ⟨1, 4, 1⟩⟩
    let longer : Token := ⟨.number, "0.00", some (.number (.nearest ⟨0, 2⟩)), ⟨0, 4, 1⟩⟩
    (zero ∈ (scan "0.0").tokens ∧ later ∈ (scan " 0.0").tokens ∧ longer ∈ (scan "0.00").tokens) ∧
      (zero.literal = later.literal ∧ zero.literalEquals later = true) ∧
      (Binary64.nearest ⟨0, 1⟩).equals (.nearest ⟨0, 2⟩) = true ∧
      (scan "0.0").tokensEqual (scan "0.00") = false := by
  intro zero later longer
  have hZero : zero ∈ (scan "0.0").tokens := by decide +kernel
  have hLater : later ∈ (scan " 0.0").tokens := by decide +kernel
  have hLonger : longer ∈ (scan "0.00").tokens := by decide +kernel
  have hBits : (Binary64.nearest ⟨0, 1⟩).bits = (Binary64.nearest ⟨0, 2⟩).bits := by decide +kernel
  obtain ⟨-, -, hPairs⟩ := scan_equality
  obtain ⟨hMoved, -⟩ := hPairs "0.0" " 0.0"
  obtain ⟨hNumbers, hTokens⟩ := hPairs "0.0" "0.00"
  refine ⟨⟨hZero, hLater, hLonger⟩, (hMoved zero hZero later hLater).2 rfl rfl,
    ((hNumbers zero hZero longer hLonger).1 _ _ rfl rfl).2 hBits, ?_⟩
  rw [Bool.eq_false_iff, Ne, hTokens]
  decide +kernel

/-- Apart from scans neither holds: the two zeros are equal, and a NaN differs from itself. -/
example : (⟨0⟩ : Binary64).equals ⟨0x8000000000000000⟩ = true ∧
    (⟨0x7FF8000000000000⟩ : Binary64).equals ⟨0x7FF8000000000000⟩ = false := by decide

end LoxLexer
