import LoxLexer.Proofs.Grammar
import Mathlib.Data.List.TakeWhile

/-!
# What a cut takes

`Segment.cut` looks at the first characters of a text and decides how far the first segment goes.
This module says once what it decides, without its order of tests and its loops: the segment is
well formed, and what follows it does not make it longer (`Segment.Complete`). Only one way of
splitting a text in two has that property, so a cut is characterised by it
(`Segment.cut_eq_iff`), and the segments of a text are the one way of writing it as a row of
well-formed segments each of which stops before the text of the following ones
(`Segment.segments_eq_iff`). Everything else about segments is derived from these two.

How far the following text is looked at differs by kind (`Kind.StopsBefore`): not at all after a
closed string or most operators, at one character after a word, a lone operator or a slash, and at
two after a number, which a point ends unless a digit follows the point.
-/

namespace LoxLexer

/-! ## Runs of characters -/

theorem head?_dropWhile_fails (p : Char → Bool) (cs : List Char) :
    ∀ c ∈ (cs.dropWhile p).head?, p c = false := by
  intro c hHead
  have hFirst := List.head?_dropWhile_not p cs
  rw [hHead] at hFirst
  exact hFirst

/-- What a character that fails a test is not. -/
theorem not_of_fails {p : Char → Bool} {P : Char → Prop} (hTest : ∀ c, p c = true ↔ P c)
    {rest : List Char} (hHead : ∀ c ∈ rest.head?, p c = false) : ∀ c ∈ rest.head?, ¬P c := by
  intro c hMem
  rw [← hTest c, hHead c hMem]
  exact Bool.false_ne_true

/-- A run ends where a character fails the test, or with the text. -/
theorem span_append {p : Char → Bool} {run rest : List Char} (hRun : ∀ c ∈ run, p c = true)
    (hStop : ∀ c ∈ rest.head?, p c = false) :
    (run ++ rest).takeWhile p = run ∧ (run ++ rest).dropWhile p = rest := by
  rw [List.takeWhile_append_of_pos hRun, List.dropWhile_append_of_pos hRun]
  cases rest with
  | nil => simp
  | cons c rest => simp [hStop c rfl]

theorem span_digits_append {run rest : List Char} (hRun : ∀ c ∈ run, Digit c)
    (hStop : ∀ c ∈ rest.head?, ¬Digit c) :
    (run ++ rest).takeWhile Char.isDigit = run ∧ (run ++ rest).dropWhile Char.isDigit = rest := by
  refine span_append (fun c hMem => isDigit_eq_true_iff.2 (hRun c hMem)) ?_
  intro c hHead
  rw [Bool.eq_false_iff, Ne, isDigit_eq_true_iff]
  exact hStop c hHead

/-! ## Complete segments -/

/-- Whether a lexeme ends where `rest` begins, in that no character of `rest` belongs to it. -/
def Kind.StopsBefore (kind : Kind) (text rest : List Char) : Prop :=
  match kind with
  | bang | equal | greater | less => rest.head? ≠ some '='
  | slash => rest.head? ≠ some '/'
  | identifier => ∀ c ∈ rest.head?, ¬WordCharacter c
  | number =>
      (∀ c ∈ rest.head?, ¬Digit c) ∧
        ('.' ∉ text → ∀ d cs, rest = '.' :: d :: cs → ¬Digit d)
  | _ => True

/-- No lexeme goes on over a blank. -/
theorem Kind.stopsBefore_blank {kind : Kind} {text : List Char} {c : Char}
    (hBlank : c ∈ [' ', '\t', '\r', '\n']) (cs : List Char) :
    kind.StopsBefore text (c :: cs) := by
  have hWord : ¬WordCharacter c := not_wordCharacter_of_blank hBlank
  have hDigit : ¬Digit c := fun hDigit => hWord (.inr hDigit)
  have hEquals : c ≠ '=' := ne_of_mem_of_not_mem hBlank (by decide)
  have hSlash : c ≠ '/' := ne_of_mem_of_not_mem hBlank (by decide)
  have hPoint : c ≠ '.' := ne_of_mem_of_not_mem hBlank (by decide)
  cases kind
  all_goals simp [Kind.StopsBefore, hEquals, hSlash, hPoint, hDigit, hWord]

/-- A punctuator is spelled with its character, and nothing makes it longer. -/
theorem Kind.punctuator_spec {kind : Kind} {c : Char} (hKind : ofPunctuator? c = some kind) :
    kind.spelling? = some [c] ∧ ∀ text rest, kind.StopsBefore text rest := by
  unfold ofPunctuator? at hKind
  split at hKind
  all_goals cases hKind
  all_goals exact ⟨rfl, fun _ _ => trivial⟩

/-- Of the two operators that begin with a character, only the shorter one looks at what follows. -/
theorem Kind.operator_spec {alone paired : Kind} {c : Char}
    (hKinds : ofOperator? c = some (alone, paired)) :
    (alone.spelling? = some [c] ∧
        ∀ text rest, rest.head? ≠ some '=' → alone.StopsBefore text rest) ∧
      paired.spelling? = some [c, '='] ∧ ∀ text rest, paired.StopsBefore text rest := by
  unfold ofOperator? at hKinds
  split at hKinds
  all_goals cases hKinds
  all_goals exact ⟨⟨rfl, fun _ _ => id⟩, rfl, fun _ _ => trivial⟩

namespace Segment

/-- The segments that sources are made of. -/
inductive WellFormed : Segment → Prop where
  | blank {c : Char} (hBlank : c ∈ [' ', '\t', '\r', '\n']) : WellFormed (.blank c)
  | comment {line : List Char} (hLine : '\n' ∉ line) : WellFormed (.comment ('/' :: '/' :: line))
  | lexeme {kind : Kind} {text : List Char} (hSpells : kind.Spells text) :
      WellFormed (.lexeme kind text)
  | unexpected {c : Char} (hBlank : c ∉ [' ', '\t', '\r', '\n'])
      (hNone : ∀ kind : Kind, ¬kind.Begins c) : WellFormed (.unexpected c)
  | unterminated {body : List Char} (hOpen : '"' ∉ body) : WellFormed (.unterminated ('"' :: body))

/-- Whether a segment ends where `rest` begins. -/
def StopsBefore : Segment → List Char → Prop
  | .comment _, rest => ∀ c ∈ rest.head?, c = '\n'
  | .lexeme kind text, rest => kind.StopsBefore text rest
  | .unterminated _, rest => rest = []
  | .blank _, _ => True
  | .unexpected _, _ => True

/-- A segment that is all that a cut takes if `rest` follows it. -/
structure Complete (s : Segment) (rest : List Char) : Prop where
  wellFormed : s.WellFormed
  stops : s.StopsBefore rest

/-- At the end of a source every segment stops. -/
theorem WellFormed.complete_nil {s : Segment} (hWellFormed : s.WellFormed) : s.Complete [] := by
  refine ⟨hWellFormed, ?_⟩
  cases s with
  | lexeme kind _ => cases kind <;> simp [StopsBefore, Kind.StopsBefore]
  | _ => simp [StopsBefore]

theorem isBlank_eq_true_iff {c : Char} : isBlank c = true ↔ c ∈ [' ', '\t', '\r', '\n'] := by
  simp [isBlank, or_assoc]

/-! ## A cut is complete -/

private theorem complete_cutSlash (cs : List Char) :
    (cutSlash cs).1.Complete (cutSlash cs).2 := by
  unfold cutSlash
  split
  case isTrue hSecond =>
      obtain ⟨rest, rfl⟩ : ∃ rest, cs = '/' :: rest := List.head?_eq_some_iff.1 hSecond
      refine ⟨.comment ?_, ?_⟩
      · intro hMem
        simpa using List.mem_takeWhile_imp hMem
      · intro c hHead
        simpa using head?_dropWhile_fails _ _ c hHead
  case isFalse hOther => exact ⟨.lexeme (.fixed rfl), hOther⟩

private theorem complete_cutString (cs : List Char) :
    (cutString cs).1.Complete (cutString cs).2 := by
  have hBody : '"' ∉ cs.takeWhile (· ≠ '"') := by
    intro hMem
    simpa using List.mem_takeWhile_imp hMem
  unfold cutString
  split
  case h_1 hRest => exact ⟨.unterminated hBody, rfl⟩
  case h_2 quote rest hRest =>
      obtain rfl : quote = '"' := by
        simpa using head?_dropWhile_fails (· ≠ '"') cs quote (by rw [hRest]; rfl)
      exact ⟨.lexeme (.string hBody), trivial⟩

private theorem digit_of_mem_takeWhile {c d : Char} {cs : List Char} (hFirst : Digit c)
    (hMem : d ∈ c :: cs.takeWhile Char.isDigit) : Digit d := by
  rcases List.mem_cons.1 hMem with rfl | hMem
  · exact hFirst
  · exact isDigit_eq_true_iff.1 (List.mem_takeWhile_imp hMem)

private theorem not_digit_of_head?_dropWhile {cs : List Char} :
    ∀ c ∈ (cs.dropWhile Char.isDigit).head?, ¬Digit c :=
  not_of_fails (fun _ => isDigit_eq_true_iff) (head?_dropWhile_fails _ cs)

/-- A fraction is taken if there is one, and then all of it. -/
private theorem cutFraction_cases (cs : List Char) :
    ((cutFraction cs).1 = [] ∧ (cutFraction cs).2 = cs ∧
        ∀ d rest, cs = '.' :: d :: rest → ¬Digit d) ∨
      ∃ fraction, (cutFraction cs).1 = '.' :: fraction ∧ fraction ≠ [] ∧
        (∀ c ∈ fraction, Digit c) ∧ ∀ c ∈ (cutFraction cs).2.head?, ¬Digit c := by
  unfold cutFraction
  split
  case h_1 d rest =>
      split
      case isTrue hDigit =>
          right
          exact ⟨d :: rest.takeWhile Char.isDigit, rfl, by simp,
            fun c hMem => digit_of_mem_takeWhile (isDigit_eq_true_iff.1 hDigit) hMem,
            not_digit_of_head?_dropWhile⟩
      case isFalse hOther =>
          left
          refine ⟨rfl, rfl, ?_⟩
          rintro d' rest' ⟨⟩
          rwa [← isDigit_eq_true_iff]
  case h_2 hNone =>
      left
      exact ⟨rfl, rfl, fun d rest hText => absurd hText (hNone d rest)⟩

private theorem complete_cutNumber {c : Char} (hDigit : Digit c) (cs : List Char) :
    (cutNumber c cs).1.Complete (cutNumber c cs).2 := by
  have hWhole : ∀ d ∈ c :: cs.takeWhile Char.isDigit, Digit d :=
    fun d hMem => digit_of_mem_takeWhile hDigit hMem
  rcases cutFraction_cases (cs.dropWhile Char.isDigit) with
    ⟨hNone, hRest, hStop⟩ | ⟨fraction, hSome, hFraction, hDigits, hStop⟩
  · have hNumeral := Numeral.integer (by simp) hWhole
    constructor
    · simpa [cutNumber, hNone] using WellFormed.lexeme (.number hNumeral)
    · simp only [cutNumber, StopsBefore, Kind.StopsBefore, hRest]
      exact ⟨not_digit_of_head?_dropWhile, fun _ => hStop⟩
  · have hNumeral := Numeral.fractional (by simp) hWhole hFraction hDigits
    constructor
    · simpa [cutNumber, hSome] using WellFormed.lexeme (.number hNumeral)
    · simp only [cutNumber, StopsBefore, Kind.StopsBefore, hSome]
      exact ⟨hStop, fun hPoint => by simp at hPoint⟩

private theorem complete_cutIdentifier {c : Char} (hLetter : Letter c) (cs : List Char) :
    (cutIdentifier c cs).1.Complete (cutIdentifier c cs).2 := by
  refine ⟨.lexeme (.identifier hLetter ?_), ?_⟩
  · intro d hMem
    exact isWordCharacter_eq_true_iff.1 (List.mem_takeWhile_imp hMem)
  · exact not_of_fails (fun _ => isWordCharacter_eq_true_iff) (head?_dropWhile_fails _ cs)

private theorem complete_punctuator {c : Char} {kind : Kind}
    (hKind : Kind.ofPunctuator? c = some kind) (rest : List Char) :
    (lexeme kind [c]).Complete rest := by
  obtain ⟨hText, hStops⟩ := Kind.punctuator_spec hKind
  exact ⟨.lexeme (.fixed hText), hStops [c] rest⟩

private theorem complete_cutOperator {c : Char} {alone paired : Kind}
    (hKinds : Kind.ofOperator? c = some (alone, paired)) (cs : List Char) :
    (cutOperator c alone paired cs).1.Complete (cutOperator c alone paired cs).2 := by
  obtain ⟨⟨hText, hStops⟩, hPairText, hPairStops⟩ := Kind.operator_spec hKinds
  unfold cutOperator
  split
  case h_1 rest => exact ⟨.lexeme (.fixed hPairText), hPairStops _ rest⟩
  case h_2 hNone =>
      have hOther : cs.head? ≠ some '=' := by
        intro hHead
        obtain ⟨rest, rfl⟩ := List.head?_eq_some_iff.1 hHead
        exact hNone rest rfl
      exact ⟨.lexeme (.fixed hText), hStops [c] cs hOther⟩

/-- **A cut takes a complete segment.** -/
theorem complete_cut (c : Char) (cs : List Char) : (cut c cs).1.Complete (cut c cs).2 := by
  unfold cut
  split
  case isTrue hBlank => exact ⟨.blank (isBlank_eq_true_iff.1 hBlank), trivial⟩
  rename_i hBlank
  split
  · exact complete_cutSlash cs
  rename_i hSlash
  split
  · exact complete_cutString cs
  rename_i hQuote
  split
  case isTrue hDigit => exact complete_cutNumber (isDigit_eq_true_iff.1 hDigit) cs
  rename_i hDigit
  split
  case isTrue hLetter => exact complete_cutIdentifier (isLetter_eq_true_iff.1 hLetter) cs
  rename_i hLetter
  split
  case h_1 kind hKind => exact complete_punctuator hKind cs
  case h_2 alone paired _ hKinds => exact complete_cutOperator hKinds cs
  case h_3 hPunctuator hOperator =>
      refine ⟨.unexpected (mt isBlank_eq_true_iff.2 hBlank) ?_, trivial⟩
      intro kind hBegins
      cases kind
      case identifier => exact hLetter (isLetter_eq_true_iff.2 hBegins)
      case number => exact hDigit (isDigit_eq_true_iff.2 hBegins)
      case string => exact hQuote hBegins
      all_goals cases hBegins
      all_goals contradiction

/-! ## A complete segment is cut -/

theorem ne_of_wordCharacter {c d : Char} (hWord : WordCharacter c)
    (hOther : ¬WordCharacter d) : c ≠ d := by
  rintro rfl
  exact hOther hWord

private theorem isBlank_of_wordCharacter {c : Char} (hWord : WordCharacter c) :
    isBlank c = false := by
  rw [Bool.eq_false_iff, Ne, isBlank_eq_true_iff]
  intro hBlank
  exact not_wordCharacter_of_blank hBlank hWord

private theorem cut_digit {c : Char} (hDigit : Digit c) (cs : List Char) :
    cut c cs = cutNumber c cs := by
  have hWord : WordCharacter c := .inr hDigit
  have hSlash : c ≠ '/' := ne_of_wordCharacter hWord (by decide)
  have hQuote : c ≠ '"' := ne_of_wordCharacter hWord (by decide)
  simp [cut, isBlank_of_wordCharacter hWord, hSlash, hQuote, isDigit_eq_true_iff.2 hDigit]

private theorem cut_letter {c : Char} (hLetter : Letter c) (cs : List Char) :
    cut c cs = cutIdentifier c cs := by
  have hWord : WordCharacter c := .inl hLetter
  have hSlash : c ≠ '/' := ne_of_wordCharacter hWord (by decide)
  have hQuote : c ≠ '"' := ne_of_wordCharacter hWord (by decide)
  have hDigit : ¬c.isDigit = true := by
    rw [isDigit_eq_true_iff]
    exact fun hDigit => not_letter_of_digit hDigit hLetter
  simp [cut, isBlank_of_wordCharacter hWord, hSlash, hQuote, hDigit,
    isLetter_eq_true_iff.2 hLetter]

private theorem cutOperator_alone {c : Char} {alone paired : Kind} {rest : List Char}
    (hStop : rest.head? ≠ some '=') :
    cutOperator c alone paired rest = (.lexeme alone [c], rest) := by
  unfold cutOperator
  split
  case h_1 rest => simp at hStop
  case h_2 => rfl

private theorem cut_fixed {kind : Kind} {c : Char} {cs rest : List Char}
    (hText : kind.spelling? = some (c :: cs)) (hStop : kind.StopsBefore (c :: cs) rest) :
    cut c (cs ++ rest) = (.lexeme kind (c :: cs), rest) := by
  cases kind
  all_goals cases hText
  case slash => exact if_neg hStop
  case bang | equal | greater | less => exact cutOperator_alone hStop
  all_goals rfl

private theorem cut_string {body rest : List Char} (hBody : '"' ∉ body) :
    cut '"' (body ++ '"' :: rest) = (.lexeme .string ('"' :: body ++ ['"']), rest) := by
  have hRun : ∀ c ∈ body, decide (c ≠ '"') = true := by
    intro c hMem
    simpa using ne_of_mem_of_not_mem hMem hBody
  have hStop : ∀ c ∈ ('"' :: rest).head?, decide (c ≠ '"') = false := by simp
  obtain ⟨hTake, hDrop⟩ := span_append hRun hStop
  show cutString (body ++ '"' :: rest) = _
  simp only [cutString, hTake, hDrop]

private theorem cutFraction_none {rest : List Char}
    (hStop : ∀ d cs, rest = '.' :: d :: cs → ¬Digit d) : cutFraction rest = ([], rest) := by
  unfold cutFraction
  split
  case h_1 d cs =>
      have hDigit : ¬d.isDigit = true := mt isDigit_eq_true_iff.1 (hStop d cs rfl)
      exact if_neg hDigit
  case h_2 => rfl

private theorem cutFraction_some {fraction rest : List Char} (hSome : fraction ≠ [])
    (hDigits : ∀ c ∈ fraction, Digit c) (hStop : ∀ c ∈ rest.head?, ¬Digit c) :
    cutFraction ('.' :: fraction ++ rest) = ('.' :: fraction, rest) := by
  obtain ⟨d, ds, rfl⟩ := List.exists_cons_of_ne_nil hSome
  have hAfter : ∀ c ∈ ds, Digit c := fun c hMem => hDigits c (List.mem_cons_of_mem d hMem)
  obtain ⟨hTake, hDrop⟩ := span_digits_append hAfter hStop
  have hDigit : d.isDigit = true := isDigit_eq_true_iff.2 (hDigits d (by simp))
  rw [List.cons_append, List.cons_append, cutFraction, if_pos hDigit, hTake, hDrop]

private theorem cut_number {c : Char} {cs rest : List Char} (hNumeral : Numeral (c :: cs))
    (hStop : Kind.number.StopsBefore (c :: cs) rest) :
    cut c (cs ++ rest) = (.lexeme .number (c :: cs), rest) := by
  obtain ⟨hStopDigit, hStopFraction⟩ := hStop
  generalize hText : c :: cs = text at hNumeral hStopFraction
  cases hNumeral with
  | integer hSome hDigits =>
      subst hText
      have hNoPoint : '.' ∉ c :: cs := fun hMem => absurd (hDigits '.' hMem) (by decide)
      have hAfter : ∀ d ∈ cs, Digit d := fun d hMem => hDigits d (List.mem_cons_of_mem c hMem)
      obtain ⟨hTake, hDrop⟩ := span_digits_append hAfter hStopDigit
      rw [cut_digit (hDigits c (by simp)), cutNumber, hTake, hDrop,
        cutFraction_none (hStopFraction hNoPoint), List.append_nil]
  | @fractional whole fraction hSome hDigits hSomeAfter hDigitsAfter =>
      obtain ⟨d, ds, rfl⟩ := List.exists_cons_of_ne_nil hSome
      rw [List.cons_append, List.cons.injEq] at hText
      obtain ⟨rfl, rfl⟩ := hText
      have hAfter : ∀ x ∈ ds, Digit x := fun x hMem => hDigits x (List.mem_cons_of_mem c hMem)
      have hMark : ∀ x ∈ ('.' :: fraction ++ rest).head?, ¬Digit x := by
        intro x hHead
        cases hHead
        decide
      obtain ⟨hTake, hDrop⟩ := span_digits_append hAfter hMark
      rw [cut_digit (hDigits c (by simp)), cutNumber, List.append_assoc, hTake, hDrop,
        cutFraction_some hSomeAfter hDigitsAfter hStopDigit, List.cons_append]

private theorem cut_identifier {c : Char} {cs rest : List Char} (hFirst : Letter c)
    (hRest : ∀ d ∈ cs, WordCharacter d) (hStop : ∀ d ∈ rest.head?, ¬WordCharacter d) :
    cut c (cs ++ rest) = (.lexeme .identifier (c :: cs), rest) := by
  have hRun : ∀ d ∈ cs, isWordCharacter d = true :=
    fun d hMem => isWordCharacter_eq_true_iff.2 (hRest d hMem)
  have hEnd : ∀ d ∈ rest.head?, isWordCharacter d = false := by
    intro d hHead
    rw [Bool.eq_false_iff, Ne, isWordCharacter_eq_true_iff]
    exact hStop d hHead
  obtain ⟨hTake, hDrop⟩ := span_append hRun hEnd
  rw [cut_letter hFirst, cutIdentifier, hTake, hDrop]

private theorem cut_comment {line rest : List Char} (hLine : '\n' ∉ line)
    (hStop : ∀ c ∈ rest.head?, c = '\n') :
    cut '/' ('/' :: line ++ rest) = (.comment ('/' :: '/' :: line), rest) := by
  have hRun : ∀ c ∈ '/' :: line, decide (c ≠ '\n') = true := by
    intro c hMem
    rcases List.mem_cons.1 hMem with rfl | hMem
    · decide
    · simpa using ne_of_mem_of_not_mem hMem hLine
  have hEnd : ∀ c ∈ rest.head?, decide (c ≠ '\n') = false := by
    intro c hHead
    simp [hStop c hHead]
  obtain ⟨hTake, hDrop⟩ := span_append hRun hEnd
  show cutSlash ('/' :: line ++ rest) = _
  rw [cutSlash, if_pos (show ('/' :: line ++ rest).head? = some '/' from rfl), hTake, hDrop]

private theorem cut_unterminated {body : List Char} (hOpen : '"' ∉ body) :
    cut '"' body = (.unterminated ('"' :: body), []) := by
  have hRun : ∀ c ∈ body, decide (c ≠ '"') = true := by
    intro c hMem
    simpa using ne_of_mem_of_not_mem hMem hOpen
  have hTake : body.takeWhile (· ≠ '"') = body := List.takeWhile_eq_self_iff.2 hRun
  have hDrop : body.dropWhile (· ≠ '"') = [] := List.dropWhile_eq_nil_iff.2 hRun
  show cutString body = _
  simp only [cutString, hTake, hDrop]

private theorem begins_of_wellFormed {kind : Kind} {c : Char} {cs : List Char}
    (hWellFormed : (lexeme kind (c :: cs)).WellFormed) : kind.Begins c := by
  cases hWellFormed with
  | lexeme hSpells =>
      obtain ⟨d, ds, hText, hBegins⟩ := hSpells.exists_begins
      cases hText
      exact hBegins

private theorem cut_unexpected {c : Char} (hBlank : c ∉ [' ', '\t', '\r', '\n'])
    (hNone : ∀ kind : Kind, ¬kind.Begins c) (rest : List Char) :
    cut c rest = (.unexpected c, rest) := by
  have hSlash : c ≠ '/' := fun hEq => hNone .slash (by rw [hEq]; rfl)
  have hPunctuator : Kind.ofPunctuator? c = none := by
    cases hKind : Kind.ofPunctuator? c with
    | none => rfl
    | some kind =>
        have hBegins := begins_of_wellFormed (complete_punctuator hKind []).wellFormed
        exact absurd hBegins (hNone kind)
  have hOperator : Kind.ofOperator? c = none := by
    cases hKinds : Kind.ofOperator? c with
    | none => rfl
    | some kinds =>
        have hBegins := begins_of_wellFormed (complete_cutOperator hKinds []).wellFormed
        exact absurd hBegins (hNone kinds.1)
  simp [cut, mt isBlank_eq_true_iff.1 hBlank, hSlash, show c ≠ '"' from hNone .string,
    mt isDigit_eq_true_iff.1 (hNone .number), mt isLetter_eq_true_iff.1 (hNone .identifier),
    hPunctuator, hOperator]

/-- **A complete segment is what a cut takes**, whatever the text behind it. -/
theorem cut_eq_of_complete {s : Segment} {rest : List Char} (hComplete : s.Complete rest)
    {c : Char} {cs : List Char} (hText : s.text ++ rest = c :: cs) : cut c cs = (s, rest) := by
  obtain ⟨hWellFormed, hStops⟩ := hComplete
  cases hWellFormed with
  | blank hBlank =>
      cases hText
      exact if_pos (isBlank_eq_true_iff.2 hBlank)
  | comment hLine =>
      cases hText
      exact cut_comment hLine hStops
  | @lexeme kind text hSpells =>
      cases hSpells with
      | fixed hFixed =>
          obtain ⟨d, ds, rfl, -⟩ := (Kind.Spells.fixed hFixed).exists_begins
          cases hText
          exact cut_fixed hFixed hStops
      | @string body hBody =>
          simp only [text, List.cons_append, List.append_assoc, List.nil_append,
            List.cons.injEq] at hText
          obtain ⟨rfl, rfl⟩ := hText
          exact cut_string hBody
      | number hNumeral =>
          obtain ⟨d, ds, rfl, -⟩ := hNumeral.exists_digit_cons
          cases hText
          exact cut_number hNumeral hStops
      | identifier hFirst hRest =>
          cases hText
          exact cut_identifier hFirst hRest hStops
  | unexpected hBlank hNone =>
      cases hText
      exact cut_unexpected hBlank hNone rest
  | unterminated hOpen =>
      cases hStops
      simp only [text, List.append_nil, List.cons.injEq] at hText
      obtain ⟨rfl, rfl⟩ := hText
      exact cut_unterminated hOpen

/-- **What a cut takes**: the complete segment that the text begins with. -/
theorem cut_eq_iff {c : Char} {cs : List Char} {s : Segment} {rest : List Char} :
    cut c cs = (s, rest) ↔ s.Complete rest ∧ s.text ++ rest = c :: cs := by
  constructor
  · intro hCut
    have hComplete := complete_cut c cs
    have hText := text_cut_append c cs
    rw [hCut] at hComplete hText
    exact ⟨hComplete, hText⟩
  · rintro ⟨hComplete, hText⟩
    exact cut_eq_of_complete hComplete hText

/-! ## Rows of segments -/

/-- Well-formed segments in a row, each of which stops before the text of those behind it. -/
def Chain : List Segment → Prop
  | [] => True
  | s :: rest => s.Complete (rest.flatMap text) ∧ Chain rest

theorem WellFormed.text_ne_nil {s : Segment} (hWellFormed : s.WellFormed) : s.text ≠ [] := by
  cases hWellFormed with
  | lexeme hSpells =>
      obtain ⟨c, cs, rfl, -⟩ := hSpells.exists_begins
      simp [text]
  | _ => simp [text]

theorem Chain.of_append {front back : List Segment} (hChain : Chain (front ++ back)) :
    Chain back := by
  induction front with
  | nil => exact hChain
  | cons s front ih => exact ih hChain.2

/-- An open string is the last segment. -/
theorem Chain.unterminated_last {front back : List Segment} {text : List Char}
    (hChain : Chain (front ++ .unterminated text :: back)) : back = [] := by
  have hRest := hChain.of_append
  have hEnd : back.flatMap Segment.text = [] := hRest.1.stops
  cases back with
  | nil => rfl
  | cons s back =>
      have hText : s.text = [] := List.flatMap_eq_nil_iff.1 hEnd s List.mem_cons_self
      exact absurd hText hRest.2.1.wellFormed.text_ne_nil

theorem Chain.ne_unterminated {front back : List Segment} {s : Segment}
    (hChain : Chain (front ++ s :: back)) : ∀ t ∈ front, ∀ text, t ≠ .unterminated text := by
  rintro t hMem text rfl
  obtain ⟨left, right, rfl⟩ := List.append_of_mem hMem
  rw [List.append_assoc] at hChain
  exact List.append_ne_nil_of_right_ne_nil right (List.cons_ne_nil s back) hChain.unterminated_last

theorem segments_text_append {s : Segment} {rest : List Char} (hComplete : s.Complete rest) :
    segments (s.text ++ rest) = s :: segments rest := by
  obtain ⟨c, cs, hText⟩ := List.exists_cons_of_ne_nil
    (List.append_ne_nil_of_left_ne_nil hComplete.wellFormed.text_ne_nil rest)
  rw [hText, segments_cons, cut_eq_of_complete hComplete hText]

theorem length_segments_le (cs : List Char) : (segments cs).length ≤ cs.length := by
  fun_induction segments cs with
  | case1 => exact Nat.le_refl 0
  | case2 c cs ih =>
      have hRest := length_cut_le c cs
      rw [List.length_cons, List.length_cons]
      omega

theorem chain_segments (cs : List Char) : Chain (segments cs) := by
  fun_induction segments cs with
  | case1 => trivial
  | case2 c cs ih =>
      refine ⟨?_, ih⟩
      rw [flatMap_text_segments]
      exact complete_cut c cs

theorem segments_flatMap_text {ss : List Segment} (hChain : Chain ss) :
    segments (ss.flatMap text) = ss := by
  induction ss with
  | nil => exact segments_nil
  | cons s ss ih =>
      obtain ⟨hComplete, hRest⟩ := hChain
      rw [List.flatMap_cons, segments_text_append hComplete, ih hRest]

/-- **The segments of a text** are the one chain of segments that spells it. -/
theorem segments_eq_iff {cs : List Char} {ss : List Segment} :
    segments cs = ss ↔ ss.flatMap text = cs ∧ Chain ss := by
  constructor
  · rintro rfl
    exact ⟨flatMap_text_segments cs, chain_segments cs⟩
  · rintro ⟨rfl, hChain⟩
    exact segments_flatMap_text hChain

end Segment

end LoxLexer
