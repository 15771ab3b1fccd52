import LoxLexer.Proofs.Placement

/-!
# Errors without lookahead

Which characters are errors can be told by reading a source once from left to right, with one of
four modes to remember and no look at the next character (`Mode`). A slash has a mode of its own,
since a second one would begin a comment; for everything else it is read as code.

At the end of a segment the mode is that of its kind (`Segment.WellFormed.foldl_text`), and the
next segment begins with a character that is read there as it is in code (`Mode.Resumes`): what
follows a slash is not a slash, and what follows a comment is a line feed. So the modes keep step
with the segments, and the characters that are read as code and begin nothing are the unexpected
ones (`scan_errors_by_modes`).
-/

namespace LoxLexer

/-- What a character is read as a part of. -/
inductive Mode where
  | code
  | slash
  | comment
  | string
deriving DecidableEq, Repr

namespace Mode

/-- The mode behind a character. -/
def next : Mode → Char → Mode
  | code, c => if c = '"' then string else if c = '/' then slash else code
  | slash, c => if c = '"' then string else if c = '/' then comment else code
  | comment, c => if c = '\n' then code else comment
  | string, c => if c = '"' then code else string

/-- The mode behind a text. -/
def after (cs : List Char) : Mode := cs.foldl next code

/-- Whether a character is read as code. -/
def ReadsCode (m : Mode) : Prop := m = code ∨ m = slash

instance : DecidablePred ReadsCode := fun m => inferInstanceAs (Decidable (_ ∨ m = _))

end Mode

/-- The characters that may stand in code, apart from letters and digits. -/
def codeMarks : List Char :=
  [' ', '\t', '\r', '\n', '"', '(', ')', '{', '}', ',', '.', '-', '+', ';', '*', '/', '!', '=', '<',
    '>']

/-- Whether a character may stand in code. -/
def Known (c : Char) : Prop := Letter c ∨ Digit c ∨ c ∈ codeMarks

instance : DecidablePred Known := fun c => inferInstanceAs (Decidable (Letter c ∨ Digit c ∨ _))

/-- **The unknown characters are the unexpected ones**: they are no blanks and begin nothing. -/
theorem wellFormed_unexpected_iff {c : Char} : (Segment.unexpected c).WellFormed ↔ ¬Known c := by
  constructor
  · intro hWellFormed hKnown
    have hCut : Segment.cut c [] = (.unexpected c, []) :=
      Segment.cut_eq_of_complete ⟨hWellFormed, trivial⟩ rfl
    have hMarks : (codeMarks.all fun d => (Segment.cut d []).1 ≠ .unexpected d) = true := by decide
    cases hWellFormed with
    | unexpected hBlank hNone =>
        rcases hKnown with hLetter | hDigit | hMem
        · exact hNone .identifier hLetter
        · exact hNone .number hDigit
        · have hOther := of_decide_eq_true (List.all_eq_true.1 hMarks c hMem)
          exact hOther (congrArg Prod.fst hCut)
  · intro hUnknown
    refine .unexpected ?_ ?_
    · intro hBlank
      exact hUnknown (.inr (.inr (List.mem_append_left _ hBlank)))
    · intro kind hBegins
      cases kind
      case identifier => exact hUnknown (.inl hBegins)
      case number => exact hUnknown (.inr (.inl hBegins))
      all_goals cases hBegins
      all_goals exact hUnknown (by decide)

/-- All that lexemes other than strings are made of is known. -/
theorem Kind.Spells.known {kind : Kind} {text : List Char} (hSpells : kind.Spells text)
    (hKind : kind ≠ .string) : ∀ c ∈ text, Known c := by
  cases hSpells with
  | fixed hText =>
      cases kind
      all_goals cases hText
      all_goals simp [Known, codeMarks]
  | string _ => exact absurd rfl hKind
  | number hNumeral =>
      intro c hMem
      rcases hNumeral.digit_or_dot c hMem with hDigit | rfl
      · exact .inr (.inl hDigit)
      · decide
  | identifier hFirst hRest =>
      refine List.forall_mem_cons.2 ⟨.inl hFirst, ?_⟩
      intro c hMem
      exact (hRest c hMem).imp_right .inl

namespace Mode

/-! ## Reading texts -/

/-- A mode that no character of a text leaves is the mode behind the text. -/
theorem foldl_next_eq_self {m : Mode} {text : List Char} (hStay : ∀ c ∈ text, m.next c = m) :
    text.foldl next m = m := by
  induction text with
  | nil => rfl
  | cons c text ih =>
      rw [List.foldl_cons, hStay c List.mem_cons_self]
      exact ih fun d hMem => hStay d (List.mem_cons_of_mem c hMem)

theorem next_comment {c : Char} (hLine : c ≠ '\n') : comment.next c = comment := if_neg hLine

theorem next_string {c : Char} (hOpen : c ≠ '"') : string.next c = string := if_neg hOpen

/-- A comment goes on to the next line feed. -/
theorem stay_comment {line : List Char} (hLine : '\n' ∉ line) :
    ∀ c ∈ line, comment.next c = comment :=
  fun _ hMem => next_comment (ne_of_mem_of_not_mem hMem hLine)

/-- A string goes on to the next quote. -/
theorem stay_string {body : List Char} (hBody : '"' ∉ body) : ∀ c ∈ body, string.next c = string :=
  fun _ hMem => next_string (ne_of_mem_of_not_mem hMem hBody)

theorem next_code {c : Char} (hQuote : c ≠ '"') (hSlash : c ≠ '/') : code.next c = code := by
  simp [next, hQuote, hSlash]

/-- The unknown characters that are read as code in a text, with the offsets at which they stand if
the text begins at `offset`. -/
def refusals (m : Mode) (offset : Nat) : List Char → List (Char × Nat)
  | [] => []
  | c :: cs =>
      if m.ReadsCode ∧ ¬Known c then (c, offset) :: refusals (m.next c) (offset + c.utf8Size) cs
      else refusals (m.next c) (offset + c.utf8Size) cs

theorem refusals_append (m : Mode) (offset : Nat) (left right : List Char) :
    refusals m offset (left ++ right) =
      refusals m offset left ++
        refusals (left.foldl next m) (offset + Text.byteLength left) right := by
  induction left generalizing m offset with
  | nil => rfl
  | cons c left ih =>
      simp only [List.cons_append, refusals, ih, List.foldl_cons, Text.byteLength_cons,
        Nat.add_assoc]
      split
      · rfl
      · rfl

/-- A character is refused where the text before it leads to a mode that reads it as code. -/
theorem mem_refusals_iff {m : Mode} {offset : Nat} {cs : List Char} {c : Char} {p : Nat} :
    (c, p) ∈ refusals m offset cs ↔
      ∃ before rest, before ++ c :: rest = cs ∧ offset + Text.byteLength before = p ∧
        (before.foldl next m).ReadsCode ∧ ¬Known c := by
  induction cs generalizing m offset with
  | nil => simp [refusals]
  | cons d cs ih =>
      have hStep : (c, p) ∈ refusals m offset (d :: cs) ↔
          (m.ReadsCode ∧ ¬Known d) ∧ (c, p) = (d, offset) ∨
            (c, p) ∈ refusals (m.next d) (offset + d.utf8Size) cs := by
        by_cases hRefused : m.ReadsCode ∧ ¬Known d
        · simp [refusals, hRefused]
        · simp [refusals, hRefused]
      rw [hStep, ih]
      constructor
      · rintro (⟨hRefused, hHere⟩ | ⟨before, rest, rfl, rfl, hRefused⟩)
        · cases hHere
          exact ⟨[], cs, rfl, rfl, hRefused⟩
        · refine ⟨d :: before, rest, rfl, ?_, hRefused⟩
          rw [Text.byteLength_cons, Nat.add_assoc]
      · rintro ⟨before, rest, hText, rfl, hRefused⟩
        cases before with
        | nil =>
            cases hText
            exact .inl ⟨hRefused, rfl⟩
        | cons x before =>
            cases hText
            refine .inr ⟨before, rest, rfl, ?_, hRefused⟩
            rw [Text.byteLength_cons, Nat.add_assoc]

theorem refusals_of_known {text : List Char} (hKnown : ∀ c ∈ text, Known c) (m : Mode)
    (offset : Nat) : refusals m offset text = [] := by
  induction text generalizing m offset with
  | nil => rfl
  | cons c text ih =>
      rw [refusals, if_neg fun hRefused => hRefused.2 (hKnown c List.mem_cons_self)]
      exact ih (fun d hMem => hKnown d (List.mem_cons_of_mem c hMem)) _ _

/-- Nothing is refused in a comment or a string. -/
theorem refusals_of_stay {m : Mode} (hSilent : ¬m.ReadsCode) {text : List Char}
    (hStay : ∀ c ∈ text, m.next c = m) (offset : Nat) : refusals m offset text = [] := by
  induction text generalizing offset with
  | nil => rfl
  | cons c text ih =>
      rw [refusals, if_neg fun hRefused => hSilent hRefused.1, hStay c List.mem_cons_self]
      exact ih (fun d hMem => hStay d (List.mem_cons_of_mem c hMem)) _

/-- Nothing is refused behind an opening of known characters that leads to such a mode. -/
theorem refusals_opened {m : Mode} (hSilent : ¬m.ReadsCode) {opening text : List Char}
    (hKnown : ∀ c ∈ opening, Known c) (hOpened : opening.foldl next code = m)
    (hStay : ∀ c ∈ text, m.next c = m) (offset : Nat) :
    refusals code offset (opening ++ text) = [] := by
  rw [refusals_append, refusals_of_known hKnown, hOpened, refusals_of_stay hSilent hStay]
  rfl

/-! ## Going on as in code -/

/-- Whether a text is read in a mode as it is in code. -/
def Resumes (m : Mode) (rest : List Char) : Prop := ∀ c ∈ rest.head?, m.next c = code.next c

/-- Only a line feed behind a comment is read as in code and is no code. -/
theorem readsCode_or_lineFeed {m : Mode} {c : Char} (hSame : m.next c = code.next c) :
    m.ReadsCode ∨ c = '\n' := by
  cases m with
  | code => exact .inl (.inl rfl)
  | slash => exact .inl (.inr rfl)
  | comment =>
      by_cases hLine : c = '\n'
      · exact .inr hLine
      · rw [next_comment hLine] at hSame
        by_cases hQuote : c = '"'
        · simp [next, hQuote] at hSame
        · by_cases hSlash : c = '/' <;> simp [next, hQuote, hSlash] at hSame
  | string =>
      by_cases hQuote : c = '"'
      · simp [next, hQuote] at hSame
      · by_cases hSlash : c = '/' <;> simp [next, hQuote, hSlash] at hSame

theorem Resumes.foldl_next {m : Mode} {text rest : List Char} (hResumes : m.Resumes (text ++ rest))
    (hSome : text ≠ []) : text.foldl next m = text.foldl next code := by
  obtain ⟨c, cs, rfl⟩ := List.exists_cons_of_ne_nil hSome
  rw [List.foldl_cons, List.foldl_cons, hResumes c rfl]

theorem Resumes.refusals {m : Mode} {text rest : List Char} (hResumes : m.Resumes (text ++ rest))
    (offset : Nat) : refusals m offset text = refusals code offset text := by
  cases text with
  | nil => rfl
  | cons c cs =>
      have hNext : m.next c = code.next c := hResumes c rfl
      by_cases hKnown : Known c
      · simp only [Mode.refusals, hKnown, hNext, not_true, and_false, if_false]
      · have hReads : m.ReadsCode :=
          (readsCode_or_lineFeed hNext).resolve_right fun hLine => hKnown (by rw [hLine]; decide)
        simp only [Mode.refusals, hNext, hReads, show code.ReadsCode from .inl rfl]

end Mode

/-! ## Reading segments -/

/-- The mode behind a segment. -/
def Segment.mode : Segment → Mode
  | .comment _ => .comment
  | .lexeme .slash _ => .slash
  | .unterminated _ => .string
  | _ => .code

theorem Kind.Spells.foldl_text {kind : Kind} {text : List Char} (hSpells : kind.Spells text) :
    text.foldl Mode.next .code = (Segment.lexeme kind text).mode := by
  have hWord {cs : List Char} (hCharacters : ∀ c ∈ cs, WordCharacter c ∨ c = '.') :
      cs.foldl Mode.next .code = .code := by
    apply Mode.foldl_next_eq_self
    intro c hMem
    have hOther (d : Char) (hWord : ¬WordCharacter d) (hDot : d ≠ '.') : c ≠ d := by
      rintro rfl
      exact (hCharacters c hMem).elim hWord hDot
    exact Mode.next_code (hOther '"' (by decide) (by decide)) (hOther '/' (by decide) (by decide))
  cases hSpells with
  | fixed hText =>
      cases kind
      all_goals cases hText
      all_goals rfl
  | string hBody =>
      rw [List.foldl_append]
      exact congrArg (Mode.next · '"') (Mode.foldl_next_eq_self (Mode.stay_string hBody))
  | number hNumeral =>
      exact hWord fun c hMem => (hNumeral.digit_or_dot c hMem).imp_left .inr
  | @identifier c cs hFirst hRest =>
      exact hWord (List.forall_mem_cons.2 ⟨.inl (.inl hFirst), fun d hMem => .inl (hRest d hMem)⟩)

/-- **The mode behind a segment** that is read as code. -/
theorem Segment.WellFormed.foldl_text {s : Segment} (hWellFormed : s.WellFormed) :
    s.text.foldl Mode.next .code = s.mode := by
  cases hWellFormed with
  | @blank c hBlank =>
      exact Mode.next_code (ne_of_mem_of_not_mem hBlank (by decide))
        (ne_of_mem_of_not_mem hBlank (by decide))
  | comment hLine => exact Mode.foldl_next_eq_self (Mode.stay_comment hLine)
  | lexeme hSpells => exact hSpells.foldl_text
  | @unexpected c _ hNone =>
      have hSlash : c ≠ '/' := fun hEq => hNone .slash (by rw [hEq]; rfl)
      exact Mode.next_code (hNone .string) hSlash
  | unterminated hOpen => exact Mode.foldl_next_eq_self (Mode.stay_string hOpen)

/-- What is refused in a segment: the character of an unexpected one. -/
def Placed.refusal? (q : Placed) : Option (Char × Nat) :=
  match q.segment with
  | .unexpected c => some (c, q.start.offset)
  | _ => none

theorem Kind.Spells.refusals_text {kind : Kind} {text : List Char} (hSpells : kind.Spells text)
    (offset : Nat) : Mode.refusals .code offset text = [] := by
  by_cases hKind : kind = .string
  · subst hKind
    cases hSpells with
    | fixed hText => cases hText
    | @string body hBody =>
        have hOpened : Mode.refusals .code offset (['"'] ++ body) = [] :=
          Mode.refusals_opened (by decide) (List.forall_mem_singleton.2 (by decide)) rfl
            (Mode.stay_string hBody) offset
        show Mode.refusals .code offset (['"'] ++ body ++ ['"']) = []
        rw [Mode.refusals_append, hOpened,
          Mode.refusals_of_known (List.forall_mem_singleton.2 (by decide))]
        rfl
  · exact Mode.refusals_of_known (hSpells.known hKind) _ _

/-- **What is refused in a segment** is the character of an unexpected one. -/
theorem Segment.WellFormed.refusals_text {s : Segment} (hWellFormed : s.WellFormed) (p : Position) :
    Mode.refusals .code p.offset s.text = (Placed.refusal? ⟨s, p⟩).toList := by
  cases hWellFormed with
  | @blank c hBlank =>
      refine Mode.refusals_of_known (List.forall_mem_singleton.2 ?_) _ _
      exact .inr (.inr (List.mem_append_left _ hBlank))
  | comment hLine =>
      have hOpening : ∀ c ∈ ['/', '/'], Known c := by simp [Known, codeMarks]
      exact Mode.refusals_opened (by decide) hOpening rfl (Mode.stay_comment hLine) _
  | lexeme hSpells => exact hSpells.refusals_text _
  | @unexpected c hBlank hNone =>
      have hUnknown : ¬Known c := wellFormed_unexpected_iff.1 (.unexpected hBlank hNone)
      exact if_pos ⟨.inl rfl, hUnknown⟩
  | unterminated hOpen =>
      exact Mode.refusals_opened (by decide) (List.forall_mem_singleton.2 (by decide)) rfl
        (Mode.stay_string hOpen) _

/-- **The next segment is read as in code**: no slash follows a slash, and a line feed a comment. -/
theorem Segment.Complete.resumes {s : Segment} {rest : List Char} (hComplete : s.Complete rest) :
    s.mode.Resumes rest := by
  obtain ⟨-, hStops⟩ := hComplete
  intro c hHead
  cases s with
  | blank _ => rfl
  | unexpected _ => rfl
  | comment _ =>
      rw [hStops c hHead]
      rfl
  | unterminated _ =>
      cases hStops
      cases hHead
  | lexeme kind _ =>
      cases kind
      case slash =>
          have hSlash : c ≠ '/' := by
            rintro rfl
            exact hStops hHead
          simp [mode, Mode.next, hSlash]
      all_goals rfl

namespace Segment

/-- A segment that is read as in code leads to its mode, and the rest is read as in code. -/
theorem Complete.foldl_text {s : Segment} {rest : List Char} (hComplete : s.Complete rest)
    {m : Mode} (hResumes : m.Resumes (s.text ++ rest)) : s.text.foldl Mode.next m = s.mode := by
  rw [hResumes.foldl_next hComplete.wellFormed.text_ne_nil, hComplete.wellFormed.foldl_text]

/-- Behind any part of a row of segments the rest of the row is read as in code. -/
theorem Chain.resumes {front back : List Segment} (hChain : Chain (front ++ back)) {m : Mode}
    (hResumes : m.Resumes ((front ++ back).flatMap text)) :
    ((front.flatMap text).foldl Mode.next m).Resumes (back.flatMap text) := by
  induction front generalizing m with
  | nil => exact hResumes
  | cons s front ih =>
      have hComplete : s.Complete ((front ++ back).flatMap text) := hChain.1
      rw [List.flatMap_cons, List.foldl_append, hComplete.foldl_text hResumes]
      exact ih hChain.2 hComplete.resumes

/-- The mode behind a row of segments is that of the last one. -/
theorem Chain.foldl_text {ss : List Segment} (hChain : Chain ss) {m : Mode}
    (hResumes : m.Resumes (ss.flatMap text)) :
    (ss.flatMap text).foldl Mode.next m = ss.getLast?.elim m mode := by
  induction ss generalizing m with
  | nil => rfl
  | cons s ss ih =>
      rw [List.flatMap_cons, List.foldl_append, hChain.1.foldl_text hResumes,
        ih hChain.2 hChain.1.resumes, List.getLast?_cons]
      cases ss.getLast?
      · rfl
      · rfl

/-- **What is refused in a row of segments** are the characters of the unexpected ones. -/
theorem Chain.refusals_text {ss : List Segment} (hChain : Chain ss) {m : Mode}
    (hResumes : m.Resumes (ss.flatMap text)) (p : Position) :
    Mode.refusals m p.offset (ss.flatMap text) =
      (Placed.ofSegments p ss).filterMap Placed.refusal? := by
  induction ss generalizing m p with
  | nil => rfl
  | cons s ss ih =>
      have hRest := ih hChain.2 hChain.1.resumes (p.advance s.text)
      rw [List.flatMap_cons, Mode.refusals_append, hResumes.refusals,
        hChain.1.wellFormed.refusals_text, hChain.1.foldl_text hResumes, Placed.ofSegments]
      show _ ++ Mode.refusals s.mode (p.advance s.text).offset (ss.flatMap text) = _
      rw [hRest, List.filterMap_cons]
      cases Placed.refusal? ⟨s, p⟩
      · rfl
      · rfl

end Segment

/-! ## Errors -/

/-- What the modes tell about the errors of a source. -/
structure Mode.Explains (cs : List Char) (errors : List LexicalError) : Prop where
  /-- An unexpected character is an unknown one that is read as code. -/
  unexpected_iff (c : Char) (offset : Nat) :
    (∃ e ∈ errors, e.fault = .unexpectedCharacter c ∧ e.span.start = offset) ↔
      ∃ before rest, before ++ c :: rest = cs ∧ Text.byteLength before = offset ∧
        (after before).ReadsCode ∧ ¬Known c
  unexpected_stop : ∀ e ∈ errors, ∀ c, e.fault = .unexpectedCharacter c →
    e.span.stop = e.span.start + c.utf8Size
  unterminated_iff : (∃ e ∈ errors, e.fault = .unterminatedString) ↔ after cs = .string
  /-- An open string is the last error, and begins at the quote that is never closed. -/
  unterminated_last : ∀ e ∈ errors, e.fault = .unterminatedString →
    ∃ earlier before body, errors = earlier ++ [e] ∧
      (∀ f ∈ earlier, f.fault ≠ .unterminatedString) ∧
      before ++ '"' :: body = cs ∧ (after before).ReadsCode ∧ '"' ∉ body ∧
      e.span.start = Text.byteLength before ∧ e.span.stop = Text.byteLength cs
  increasing : errors.Pairwise fun e f => e.span.start < f.span.start

theorem Placed.refusal?_eq_some_iff {q : Placed} {c : Char} {offset : Nat} :
    q.refusal? = some (c, offset) ↔
      ∃ e, q.error? = some e ∧ e.fault = .unexpectedCharacter c ∧ e.span.start = offset := by
  unfold refusal? error?
  cases q.segment
  all_goals simp

theorem Placed.mem_errors_iff {source : String} {e : LexicalError} :
    e ∈ (scan source).errors ↔
      ∃ q ∈ Placed.ofSegments .origin (Segment.segments source.toList), q.error? = some e :=
  List.mem_filterMap

theorem Segment.fault?_eq_unterminated_iff {s : Segment} :
    s.fault? = some .unterminatedString ↔ ∃ text, s = .unterminated text := by
  cases s
  all_goals simp [fault?]

/-- The error of an open string comes from the last segment. -/
theorem exists_segments_of_unterminated {source : String} {e : LexicalError}
    (hMem : e ∈ (scan source).errors) (hFault : e.fault = .unterminatedString) :
    ∃ front text, Segment.segments source.toList = front ++ [.unterminated text] ∧
      Placed.error? ⟨.unterminated text, Position.origin.advance (front.flatMap Segment.text)⟩ =
        some e := by
  obtain ⟨⟨s, p⟩, hPlaced, hError⟩ := Placed.mem_errors_iff.1 hMem
  obtain ⟨front, back, hSegments, hStart⟩ := Placed.mem_ofSegments_iff.1 hPlaced
  have hSegment := (Placed.fault_of_error? hError).1
  rw [hFault] at hSegment
  obtain ⟨text, rfl⟩ := Segment.fault?_eq_unterminated_iff.1 hSegment
  have hChain := Segment.chain_segments source.toList
  rw [hSegments] at hChain
  obtain rfl := hChain.unterminated_last
  cases hStart
  exact ⟨front, text, hSegments, hError⟩

theorem mode_eq_string_iff {s : Segment} : s.mode = .string ↔ ∃ text, s = .unterminated text := by
  cases s with
  | unterminated text => exact ⟨fun _ => ⟨text, rfl⟩, fun _ => rfl⟩
  | lexeme kind text => cases kind <;> simp [Segment.mode]
  | _ => simp [Segment.mode]

theorem mode_eq_comment_iff {s : Segment} :
    s.mode = .comment ↔ ∃ text, s = .comment text := by
  cases s with
  | comment text => exact ⟨fun _ => ⟨text, rfl⟩, fun _ => rfl⟩
  | lexeme kind text => cases kind <;> simp [Segment.mode]
  | _ => simp [Segment.mode]

private theorem resumes_code (rest : List Char) : Mode.code.Resumes rest := fun _ _ => rfl

theorem after_eq_string_iff (source : String) :
    Mode.after source.toList = .string ↔
      ∃ text, (Segment.segments source.toList).getLast? = some (.unterminated text) := by
  have hLast := (Segment.chain_segments source.toList).foldl_text (resumes_code _)
  rw [Segment.flatMap_text_segments] at hLast
  rw [Mode.after, hLast]
  cases (Segment.segments source.toList).getLast? with
  | none => simp
  | some s => simp [mode_eq_string_iff]

/-- The unexpected characters are those that are refused. -/
theorem exists_unexpected_iff (source : String) (c : Char) (offset : Nat) :
    (∃ e ∈ (scan source).errors, e.fault = .unexpectedCharacter c ∧ e.span.start = offset) ↔
      (c, offset) ∈ Mode.refusals .code 0 source.toList := by
  have hRefusals := (Segment.chain_segments source.toList).refusals_text (resumes_code _) .origin
  rw [Segment.flatMap_text_segments] at hRefusals
  show _ ↔ (c, offset) ∈ Mode.refusals .code Position.origin.offset source.toList
  rw [hRefusals, List.mem_filterMap]
  constructor
  · rintro ⟨e, hMem, hPlace⟩
    obtain ⟨q, hPlaced, hError⟩ := Placed.mem_errors_iff.1 hMem
    exact ⟨q, hPlaced, Placed.refusal?_eq_some_iff.2 ⟨e, hError, hPlace⟩⟩
  · rintro ⟨q, hPlaced, hRefused⟩
    obtain ⟨e, hError, hPlace⟩ := Placed.refusal?_eq_some_iff.1 hRefused
    exact ⟨e, Placed.mem_errors_iff.2 ⟨q, hPlaced, hError⟩, hPlace⟩

theorem Placed.stop_of_unexpected {q : Placed} {e : LexicalError} {c : Char}
    (hError : q.error? = some e) (hFault : e.fault = .unexpectedCharacter c) :
    e.span.stop = e.span.start + c.utf8Size := by
  obtain ⟨hSegment, hStart, hStop⟩ := fault_of_error? hError
  rw [hFault] at hSegment
  rw [hStart, hStop]
  cases q with
  | mk s p =>
      cases s with
      | unexpected d =>
          cases hSegment
          show p.offset + Text.byteLength [c] = p.offset + c.utf8Size
          simp
      | _ => cases hSegment

/-- **Where an open string begins**: at a quote that is read as code and is the last quote. -/
theorem unterminated_of_scan {source : String} {e : LexicalError}
    (hMem : e ∈ (scan source).errors) (hFault : e.fault = .unterminatedString) :
    ∃ earlier before body, (scan source).errors = earlier ++ [e] ∧
      (∀ f ∈ earlier, f.fault ≠ .unterminatedString) ∧
      before ++ '"' :: body = source.toList ∧ (Mode.after before).ReadsCode ∧ '"' ∉ body ∧
      e.span.start = Text.byteLength before ∧ e.span.stop = Text.byteLength source.toList := by
  obtain ⟨front, text, hSegments, hError⟩ := exists_segments_of_unterminated hMem hFault
  have hChain := Segment.chain_segments source.toList
  have hText := Segment.flatMap_text_segments source.toList
  rw [hSegments] at hChain hText
  obtain ⟨-, hStart, hStop⟩ := Placed.fault_of_error? hError
  rw [Placed.stop, ← Position.advance_append, origin_advance] at hStop
  rw [origin_advance] at hStart
  have hErrors : (scan source).errors =
      (Placed.ofSegments .origin front).filterMap Placed.error? ++ [e] := by
    rw [scan_eq_ofSegments, hSegments]
    show (Placed.ofSegments .origin (front ++ [.unterminated text])).filterMap Placed.error? = _
    rw [Placed.ofSegments_append, List.filterMap_append, Placed.ofSegments,
      List.filterMap_cons_some hError]
    rfl
  have hEarlier : ∀ f ∈ (Placed.ofSegments .origin front).filterMap Placed.error?,
      f.fault ≠ .unterminatedString := by
    intro f hFirst hUnterminated
    obtain ⟨q, hPlaced, hMade⟩ := List.mem_filterMap.1 hFirst
    obtain ⟨inner, after, rfl, -⟩ := Placed.mem_ofSegments_iff.1 hPlaced
    have hSegment := (Placed.fault_of_error? hMade).1
    rw [hUnterminated] at hSegment
    obtain ⟨body, hOpen⟩ := Segment.fault?_eq_unterminated_iff.1 hSegment
    exact hChain.ne_unterminated q.segment (by simp) body hOpen
  have hResumes := hChain.resumes (resumes_code _)
  have hLast : (Segment.unterminated text).WellFormed := hChain.of_append.1.wellFormed
  cases hLast with
  | @unterminated body hOpen =>
      have hReads := Mode.readsCode_or_lineFeed (hResumes '"' rfl)
      refine ⟨_, front.flatMap Segment.text, body, hErrors, hEarlier, ?_,
        hReads.resolve_right (by decide), hOpen, hStart, ?_⟩
      · rw [← hText, List.flatMap_append, List.flatMap_singleton]
        rfl
      · rw [hStop, ← hText, List.flatMap_append, List.flatMap_singleton]

theorem explains_scan (source : String) : Mode.Explains source.toList (scan source).errors where
  unexpected_iff c offset := by
    rw [exists_unexpected_iff, Mode.mem_refusals_iff]
    simp only [Nat.zero_add]
    rfl
  unexpected_stop e hMem c hFault := by
    obtain ⟨q, -, hError⟩ := Placed.mem_errors_iff.1 hMem
    exact Placed.stop_of_unexpected hError hFault
  unterminated_iff := by
    rw [after_eq_string_iff]
    constructor
    · rintro ⟨e, hMem, hFault⟩
      obtain ⟨front, text, hSegments, -⟩ := exists_segments_of_unterminated hMem hFault
      exact ⟨text, by rw [hSegments, List.getLast?_concat]⟩
    · rintro ⟨text, hLast⟩
      have hFault : Fault.unterminatedString ∈ (scan source).errors.map LexicalError.fault := by
        rw [(describes_scan source).map_errors]
        exact List.mem_filterMap.2 ⟨_, List.mem_of_getLast? hLast, rfl⟩
      obtain ⟨e, hMem, hUnterminated⟩ := List.mem_map.1 hFault
      exact ⟨e, hMem, hUnterminated⟩
  unterminated_last e hMem hFault := unterminated_of_scan hMem hFault
  increasing := by
    have hSome : ∀ s ∈ Segment.segments source.toList, s.text ≠ [] :=
      fun s hMem => Segment.text_ne_nil_of_mem_segments hMem
    refine List.Pairwise.filterMap _ ?_ (Placed.pairwise_ofSegments hSome .origin)
    intro q r hOrder e hFirst f hSecond
    rw [(Placed.fault_of_error? hFirst).2.1, (Placed.fault_of_error? hSecond).2.1]
    exact hOrder.1

/-- **Errors without lookahead.** The modes tell which errors a source has and where, and hence
whether it has any. -/
theorem scan_errors_by_modes (source : String) :
    Mode.Explains source.toList (scan source).errors ∧
      ((scan source).hasError = true ↔
        Mode.after source.toList = .string ∨
          ∃ before c rest, before ++ c :: rest = source.toList ∧
            (Mode.after before).ReadsCode ∧ ¬Known c) := by
  have hExplains := explains_scan source
  refine ⟨hExplains, ?_⟩
  have hSome : (scan source).hasError = true ↔ ∃ e, e ∈ (scan source).errors := by
    simp [Scan.hasError, List.eq_nil_iff_forall_not_mem]
  rw [hSome]
  constructor
  · rintro ⟨e, hMem⟩
    cases hFault : e.fault with
    | unexpectedCharacter c =>
        obtain ⟨before, rest, hText, -, hRefused⟩ :=
          (hExplains.unexpected_iff c e.span.start).1 ⟨e, hMem, hFault, rfl⟩
        exact .inr ⟨before, c, rest, hText, hRefused⟩
    | unterminatedString => exact .inl (hExplains.unterminated_iff.1 ⟨e, hMem, hFault⟩)
  · rintro (hOpen | ⟨before, c, rest, hText, hRefused⟩)
    · obtain ⟨e, hMem, -⟩ := hExplains.unterminated_iff.2 hOpen
      exact ⟨e, hMem⟩
    · obtain ⟨e, hMem, -⟩ := (hExplains.unexpected_iff c _).2 ⟨before, rest, hText, rfl, hRefused⟩
      exact ⟨e, hMem⟩

end LoxLexer
