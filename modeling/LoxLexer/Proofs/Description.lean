import LoxLexer.Proofs.Segmentation
import LoxLexer.Scan

/-!
# What a scan tells about segments

A scan is told here segment by segment, with nothing but the text before each of them to go by:
a lexeme gives a token whose span is the bytes it takes and whose line is one more than the line
feeds before it, an unexpected character and an open string give errors, blanks and comments give
nothing, and the end gives the last token (`Scan.Describes`). The value of a token is what the
grammar lets its lexeme carry.

`describes_scan` says that a scan is this description of the segments of its source. A
description is determined by the segments (`Scan.Describes.unique`), so there is no other.
-/

namespace LoxLexer

/-- The number of the line that a text leads to from the beginning of a source. -/
def lineAfter (before : List Char) : Nat := 1 + before.count '\n'

/-- The scan of the segments that are read after a text. -/
inductive Scan.Describes : Scan → List Char → List Segment → Prop where
  | nil {before : List Char} :
      Describes
        ⟨[⟨.endOfFile, "", none,
          ⟨Text.byteLength before, Text.byteLength before, lineAfter before⟩⟩], []⟩
        before []
  | blank {c : Char} {result : Scan} {before : List Char} {ss : List Segment}
      (hRest : Describes result (before ++ [c]) ss) : Describes result before (.blank c :: ss)
  | comment {text : List Char} {result : Scan} {before : List Char} {ss : List Segment}
      (hRest : Describes result (before ++ text) ss) : Describes result before (.comment text :: ss)
  | lexeme {kind : Kind} {text : List Char} {literal : Option Literal} {tokens : List Token}
      {errors : List LexicalError} {before : List Char} {ss : List Segment}
      (hLiteral : kind.Carries text literal)
      (hRest : Describes ⟨tokens, errors⟩ (before ++ text) ss) :
      Describes
        ⟨⟨kind, String.ofList text, literal, ⟨Text.byteLength before,
          Text.byteLength (before ++ text), lineAfter before⟩⟩ :: tokens, errors⟩
        before (.lexeme kind text :: ss)
  | unexpected {c : Char} {tokens : List Token} {errors : List LexicalError} {before : List Char}
      {ss : List Segment} (hRest : Describes ⟨tokens, errors⟩ (before ++ [c]) ss) :
      Describes
        ⟨tokens, ⟨.unexpectedCharacter c, ⟨Text.byteLength before,
          Text.byteLength (before ++ [c]), lineAfter before⟩⟩ :: errors⟩
        before (.unexpected c :: ss)
  | unterminated {text : List Char} {tokens : List Token} {errors : List LexicalError}
      {before : List Char} {ss : List Segment}
      (hRest : Describes ⟨tokens, errors⟩ (before ++ text) ss) :
      Describes
        ⟨tokens, ⟨.unterminatedString, ⟨Text.byteLength before,
          Text.byteLength (before ++ text), lineAfter (before ++ text)⟩⟩ :: errors⟩
        before (.unterminated text :: ss)

/-- The kind and the text of a lexeme. -/
def Segment.lexeme? : Segment → Option (Kind × List Char)
  | .lexeme kind text => some (kind, text)
  | _ => none

/-- What is wrong with a segment. -/
def Segment.fault? : Segment → Option Fault
  | .unexpected c => some (.unexpectedCharacter c)
  | .unterminated _ => some .unterminatedString
  | _ => none

theorem Segment.eq_of_lexeme? {s : Segment} {kind : Kind} {text : List Char}
    (hLexeme : s.lexeme? = some (kind, text)) : s = .lexeme kind text := by
  cases s
  all_goals cases hLexeme
  rfl

/-! ## Values -/

theorem ofNumeral?_integer {digits : List Char} (hSome : digits ≠ [])
    (hDigits : ∀ c ∈ digits, Digit c) :
    Decimal.ofNumeral? digits = some ⟨Nat.ofDigitChars 10 digits 0, 0⟩ := by
  have hEnd : ∀ c ∈ ([] : List Char).head?, ¬Digit c := by simp
  obtain ⟨hTake, hDrop⟩ := span_digits_append hDigits hEnd
  rw [List.append_nil] at hTake hDrop
  simp [Decimal.ofNumeral?, hTake, hDrop, hSome]

theorem ofNumeral?_fractional {whole fraction : List Char} (hSome : whole ≠ [])
    (hDigits : ∀ c ∈ whole, Digit c) (hSomeAfter : fraction ≠ [])
    (hDigitsAfter : ∀ c ∈ fraction, Digit c) :
    Decimal.ofNumeral? (whole ++ '.' :: fraction) =
      some ⟨Nat.ofDigitChars 10 (whole ++ fraction) 0, fraction.length⟩ := by
  have hMark : ∀ c ∈ ('.' :: fraction).head?, ¬Digit c := by
    intro c hHead
    cases hHead
    decide
  obtain ⟨hTake, hDrop⟩ := span_digits_append hDigits hMark
  have hAll : ∀ c ∈ fraction, c.isDigit = true :=
    fun c hMem => isDigit_eq_true_iff.2 (hDigitsAfter c hMem)
  simpa [Decimal.ofNumeral?, hTake, hDrop, hSome, hSomeAfter] using hAll

theorem ofLexeme?_of_carries {kind : Kind} {text : List Char} {literal : Option Literal}
    (hCarries : kind.Carries text literal) : Literal.ofLexeme? kind text = literal := by
  cases hCarries with
  | fixed hText =>
      cases kind
      all_goals cases hText
      all_goals rfl
  | string hBody => simp [Literal.ofLexeme?]
  | integer hSome hDigits =>
      rw [Literal.ofLexeme?, ofNumeral?_integer hSome hDigits]
      rfl
  | fractional hSome hDigits hSomeAfter hDigitsAfter =>
      rw [Literal.ofLexeme?, ofNumeral?_fractional hSome hDigits hSomeAfter hDigitsAfter]
      rfl
  | identifier hFirst hRest => rfl

/-- **A lexeme carries one value**, which is the literal that is made of it. -/
theorem carries_iff {kind : Kind} {text : List Char} {literal : Option Literal} :
    kind.Carries text literal ↔ kind.Spells text ∧ Literal.ofLexeme? kind text = literal := by
  constructor
  · intro hCarries
    exact ⟨hCarries.spells, ofLexeme?_of_carries hCarries⟩
  · rintro ⟨hSpells, rfl⟩
    obtain ⟨literal, hCarries⟩ := hSpells.exists_carries
    rwa [ofLexeme?_of_carries hCarries]

/-! ## Descriptions -/

/-- The scan of segments that are placed one after another, the first at `p`. -/
def Scan.ofSegments (p : Position) (ss : List Segment) : Scan :=
  ⟨(Placed.ofSegments p ss).filterMap Placed.token? ++
      [Token.endOfFile (p.advance (ss.flatMap Segment.text))],
    (Placed.ofSegments p ss).filterMap Placed.error?⟩

theorem scan_eq_ofSegments (source : String) :
    scan source = Scan.ofSegments .origin (Segment.segments source.toList) := by
  simp [scan, Scan.ofSegments, Segment.flatMap_text_segments]

/-- The first segment adds what it is placed as, and the others follow behind it. -/
theorem Scan.ofSegments_cons (p : Position) (s : Segment) (ss : List Segment) :
    Scan.ofSegments p (s :: ss) =
      ⟨(Placed.token? ⟨s, p⟩).toList ++ (Scan.ofSegments (p.advance s.text) ss).tokens,
        (Placed.error? ⟨s, p⟩).toList ++ (Scan.ofSegments (p.advance s.text) ss).errors⟩ := by
  simp only [Scan.ofSegments, Placed.ofSegments, List.flatMap_cons, Position.advance_append,
    List.filterMap_cons]
  cases Placed.token? ⟨s, p⟩
  all_goals cases Placed.error? ⟨s, p⟩
  all_goals rfl

theorem origin_advance (before : List Char) :
    Position.origin.advance before = ⟨Text.byteLength before, lineAfter before⟩ := by
  simp [Position.advance, Position.origin, lineAfter]

theorem Placed.stop_origin_advance (s : Segment) (before : List Char) :
    stop ⟨s, Position.origin.advance before⟩ =
      ⟨Text.byteLength (before ++ s.text), lineAfter (before ++ s.text)⟩ := by
  rw [stop, ← Position.advance_append, origin_advance]

theorem lineAfter_append_singleton {before : List Char} {c : Char} (hLine : c ≠ '\n') :
    lineAfter (before ++ [c]) = lineAfter before := by
  simp [lineAfter, hLine]

/-- **Placed segments give their description**: the position at which a segment is placed holds
the number of bytes and lines of the text before it. -/
theorem describes_ofSegments {ss : List Segment} (hChain : Segment.Chain ss) :
    ∀ before : List Char,
      (Scan.ofSegments (Position.origin.advance before) ss).Describes before ss := by
  induction ss with
  | nil =>
      intro before
      rw [origin_advance]
      simp only [Scan.ofSegments, Position.advance_nil, List.flatMap_nil]
      exact .nil
  | cons s ss ih =>
      intro before
      obtain ⟨⟨hWellFormed, -⟩, hRest⟩ := hChain
      have hDescribes := ih hRest (before ++ s.text)
      rw [Scan.ofSegments_cons, ← Position.advance_append]
      generalize Scan.ofSegments (Position.origin.advance (before ++ s.text)) ss = rest
        at hDescribes
      simp only [Placed.token?, Placed.error?, Placed.stop_origin_advance]
      rw [origin_advance]
      cases hWellFormed with
      | blank _ => exact .blank hDescribes
      | comment _ => exact .comment hDescribes
      | lexeme hSpells => exact .lexeme (carries_iff.2 ⟨hSpells, rfl⟩) hDescribes
      | @unexpected c hBlank _ =>
          have hLine : c ≠ '\n' := ne_lineFeed_of_not_blank hBlank
          rw [show lineAfter (before ++ (Segment.unexpected c).text) = lineAfter before from
            lineAfter_append_singleton hLine]
          exact .unexpected hDescribes
      | unterminated _ => exact .unterminated hDescribes

theorem Scan.Describes.unique {first second : Scan} {before : List Char} {ss : List Segment}
    (hFirst : first.Describes before ss) (hSecond : second.Describes before ss) :
    first = second := by
  induction hFirst generalizing second with
  | nil =>
      cases hSecond
      rfl
  | blank _ ih =>
      cases hSecond with
      | blank hRest => exact ih hRest
  | comment _ ih =>
      cases hSecond with
      | comment hRest => exact ih hRest
  | lexeme hLiteral _ ih =>
      cases hSecond with
      | lexeme hLiteral' hRest =>
          cases ih hRest
          cases (ofLexeme?_of_carries hLiteral).symm.trans (ofLexeme?_of_carries hLiteral')
          rfl
  | unexpected _ ih =>
      cases hSecond with
      | unexpected hRest =>
          cases ih hRest
          rfl
  | unterminated _ ih =>
      cases hSecond with
      | unterminated hRest =>
          cases ih hRest
          rfl

/-- **A scan is the description of the segments of its source.** -/
theorem describes_scan (source : String) :
    (scan source).Describes [] (Segment.segments source.toList) := by
  rw [scan_eq_ofSegments]
  simpa using describes_ofSegments (Segment.chain_segments source.toList) []

/-- The tokens before the end are the lexemes among the segments. -/
theorem Scan.Describes.map_tokens {result : Scan} {before : List Char} {ss : List Segment}
    (hDescribes : result.Describes before ss) :
    result.tokens.map (fun t => (t.kind, t.lexeme.toList)) =
      ss.filterMap Segment.lexeme? ++ [(.endOfFile, [])] := by
  induction hDescribes with
  | nil => rfl
  | lexeme _ _ ih => simpa [Segment.lexeme?] using ih
  | blank _ ih => exact ih
  | comment _ ih => exact ih
  | unexpected _ ih => exact ih
  | unterminated _ ih => exact ih

/-- The errors are the faulty ones among the segments. -/
theorem Scan.Describes.map_errors {result : Scan} {before : List Char} {ss : List Segment}
    (hDescribes : result.Describes before ss) :
    result.errors.map LexicalError.fault = ss.filterMap Segment.fault? := by
  induction hDescribes with
  | nil => rfl
  | lexeme _ _ ih => exact ih
  | blank _ ih => exact ih
  | comment _ ih => exact ih
  | unexpected _ ih => simpa [Segment.fault?] using ih
  | unterminated _ ih => simpa [Segment.fault?] using ih

end LoxLexer
