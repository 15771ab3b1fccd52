import LoxLexer.Proofs.LineNumbers
import LoxLexer.Proofs.Modes
import LoxLexer.Report

/-!
# Where a report points

A report in the pretty style names a row and a column behind the path. They count display lines and
characters, while an error has its place in bytes and its line in line feeds. This module says what
they come to, for the errors of a scan: the column-th character of the row-th display line is the
one with which the error begins (`report_location`), and the row is ahead of the line by the line
ends other than line feeds that stand before it (`extraEnds`).

Display lines are described apart from the way in which they are cut: `Splits` takes a text apart
after each terminator, and there is one way of doing so (`splits_iff`). A character is found in the
pieces by following that relation (`Splits.exists_place`): each piece that is passed has one line
end, and the character is not the line feed of a pair, the only character that stands behind a line
end in its own piece.
-/

namespace LoxLexer

namespace Text

/-! ## Display lines -/

/-- The characters that end a display line. -/
def lineEnds : List Char := ['\n', '\r', '\x0b', '\x0c', '\x85', '\u2028', '\u2029']

theorem isTerminator_eq_true_iff {c : Char} : isTerminator c = true ↔ c ∈ lineEnds := by
  simp only [isTerminator, Bool.or_eq_true, decide_eq_true_eq, lineEnds, List.mem_cons,
    List.not_mem_nil, or_false]
  grind

/-- What ends a display line in front of the rest of a text. A carriage return does not end it if a
line feed follows, but together with that. -/
inductive Terminator : List Char → List Char → Prop where
  | pair {rest : List Char} : Terminator ['\r', '\n'] rest
  | single {c : Char} {rest : List Char} (hEnds : c ∈ lineEnds)
      (hAlone : c = '\r' → rest.head? ≠ some '\n') : Terminator [c] rest

/-- The pieces of a text that is split after each terminator. -/
inductive Splits : List Char → List (List Char) → Prop where
  | nil : Splits [] []
  | last {body : List Char} (hSome : body ≠ []) (hBody : ∀ c ∈ body, c ∉ lineEnds) :
      Splits body [body]
  | cons {body terminator rest : List Char} {pieces : List (List Char)}
      (hBody : ∀ c ∈ body, c ∉ lineEnds) (hEnd : Terminator terminator rest)
      (hRest : Splits rest pieces) :
      Splits (body ++ terminator ++ rest) ((body ++ terminator) :: pieces)

/-- A character that ends no line makes the first piece longer. -/
theorem Splits.cons_inside {c : Char} {cs line : List Char} {pieces : List (List Char)}
    (hInside : c ∉ lineEnds) (hSplits : Splits cs (line :: pieces)) :
    Splits (c :: cs) ((c :: line) :: pieces) := by
  cases hSplits with
  | last _ hBody => exact .last (List.cons_ne_nil c cs) (List.forall_mem_cons.2 ⟨hInside, hBody⟩)
  | @cons body terminator rest pieces hBody hEnd hRest =>
      exact @Splits.cons (c :: body) terminator rest pieces
        (List.forall_mem_cons.2 ⟨hInside, hBody⟩) hEnd hRest

theorem splits_splitLines (cs : List Char) : Splits cs (splitLines cs) := by
  fun_induction splitLines cs with
  | case1 => exact .nil
  | case2 cs ih => exact @Splits.cons [] _ cs _ (by simp) .pair ih
  | case3 c cs hOther hEnds ih =>
      refine @Splits.cons [] _ cs _ (by simp) (.single (isTerminator_eq_true_iff.1 hEnds) ?_) ih
      rintro rfl hHead
      obtain ⟨rest, rfl⟩ := List.head?_eq_some_iff.1 hHead
      exact hOther rest rfl rfl
  | case4 c cs _ hInside hRest ih =>
      rw [hRest] at ih
      cases ih
      exact .last (List.cons_ne_nil c []) (by simpa [isTerminator_eq_true_iff] using hInside)
  | case5 c cs _ hInside line rest hRest ih =>
      rw [hRest] at ih
      exact ih.cons_inside (mt isTerminator_eq_true_iff.2 hInside)

theorem splitLines_terminator {terminator rest : List Char} (hEnd : Terminator terminator rest) :
    splitLines (terminator ++ rest) = terminator :: splitLines rest := by
  cases hEnd with
  | pair => rw [List.cons_append, List.singleton_append, splitLines]
  | @single c rest hEnds hAlone =>
      have hOther : ∀ tail, c = '\r' → rest ≠ '\n' :: tail := by
        rintro tail hReturn rfl
        exact hAlone hReturn rfl
      rw [List.singleton_append, splitLines, if_pos (isTerminator_eq_true_iff.2 hEnds)]
      exact hOther

theorem splitLines_inside {body rest line : List Char} {pieces : List (List Char)}
    (hBody : ∀ c ∈ body, c ∉ lineEnds) (hRest : splitLines rest = line :: pieces) :
    splitLines (body ++ rest) = (body ++ line) :: pieces := by
  induction body with
  | nil => exact hRest
  | cons c body ih =>
      obtain ⟨hFirst, hLater⟩ := List.forall_mem_cons.1 hBody
      have hOther : ∀ tail, c = '\r' → body ++ rest ≠ '\n' :: tail := by
        rintro tail rfl
        exact absurd (by decide) hFirst
      rw [List.cons_append, splitLines, if_neg (mt isTerminator_eq_true_iff.1 hFirst),
        ih hLater]
      · rfl
      · exact hOther

/-- A text without line ends is one piece. -/
theorem splitLines_body {body : List Char} (hSome : body ≠ []) (hBody : ∀ c ∈ body, c ∉ lineEnds) :
    splitLines body = [body] := by
  have hLast : splitLines [body.getLast hSome] = [[body.getLast hSome]] := by
    have hInside : body.getLast hSome ∉ lineEnds := hBody _ (List.getLast_mem hSome)
    simp [splitLines, isTerminator_eq_true_iff, hInside]
  have hFront : ∀ c ∈ body.dropLast, c ∉ lineEnds :=
    fun c hMem => hBody c (List.dropLast_subset body hMem)
  have hSplit := splitLines_inside hFront hLast
  rwa [List.dropLast_concat_getLast] at hSplit

/-- **There is one way to split a text** after its terminators. -/
theorem splits_iff {cs : List Char} {pieces : List (List Char)} :
    Splits cs pieces ↔ pieces = splitLines cs := by
  constructor
  · intro hSplits
    induction hSplits with
    | nil => rfl
    | last hSome hBody => exact (splitLines_body hSome hBody).symm
    | cons hBody hEnd _ ih =>
        rw [List.append_assoc, splitLines_inside hBody (splitLines_terminator hEnd), ih]
  · rintro rfl
    exact splits_splitLines cs

/-! ## Line ends other than line feeds -/

/-- How many display lines end among the characters `before`, with `after` behind them, other than
by a line feed: by a carriage return that no line feed follows, or by one of the others. -/
def extraEnds : List Char → List Char → Nat
  | [], _ => 0
  | c :: before, after =>
      extraEnds before after +
        if c = '\r' then (if (before ++ after).head? = some '\n' then 0 else 1)
        else if c ∈ ['\x0b', '\x0c', '\x85', '\u2028', '\u2029'] then 1 else 0

theorem extraEnds_append (front before after : List Char) :
    extraEnds (front ++ before) after =
      extraEnds front (before ++ after) + extraEnds before after := by
  induction front with
  | nil => simp [extraEnds]
  | cons c front ih =>
      rw [List.cons_append, extraEnds, extraEnds, ih, List.append_assoc]
      omega

/-- How many display lines end among the characters `before`, with `after` behind them. -/
def endsBefore (before after : List Char) : Nat :=
  before.count '\n' + extraEnds before after

theorem endsBefore_append (front before after : List Char) :
    endsBefore (front ++ before) after =
      endsBefore front (before ++ after) + endsBefore before after := by
  rw [endsBefore, endsBefore, endsBefore, List.count_append, extraEnds_append]
  omega

theorem endsBefore_body {body : List Char} (hBody : ∀ c ∈ body, c ∉ lineEnds) (after : List Char) :
    endsBefore body after = 0 := by
  induction body with
  | nil => rfl
  | cons c body ih =>
      obtain ⟨hFirst, hLater⟩ := List.forall_mem_cons.1 hBody
      have hOne : endsBefore [c] (body ++ after) = 0 := by
        simp only [lineEnds, List.mem_cons, List.not_mem_nil, or_false, not_or] at hFirst
        simp [endsBefore, extraEnds, hFirst]
      rw [← List.singleton_append, endsBefore_append, hOne, ih hLater]

/-- **A terminator is one line end**, also the pair. -/
theorem endsBefore_terminator {terminator rest : List Char} (hEnd : Terminator terminator rest) :
    endsBefore terminator rest = 1 := by
  cases hEnd with
  | pair => simp [endsBefore, extraEnds]
  | @single c rest hEnds hAlone =>
      by_cases hReturn : c = '\r'
      · subst hReturn
        simp [endsBefore, extraEnds, hAlone rfl]
      · by_cases hFeed : c = '\n'
        · subst hFeed
          simp [endsBefore, extraEnds]
        · simp only [lineEnds, List.mem_cons, List.not_mem_nil, or_false, hFeed, hReturn,
            false_or] at hEnds
          simp [endsBefore, extraEnds, hFeed, hReturn, hEnds]

/-! ## The place of a character -/

/-- Behind a line end in its own piece there is at most a line feed. -/
theorem Terminator.eq_nil_of_append {front tail rest : List Char} {c : Char}
    (hEnd : Terminator (front ++ c :: tail) rest) (hFeed : c ≠ '\n') : front = [] := by
  generalize hText : front ++ c :: tail = terminator at hEnd
  cases hEnd with
  | single _ _ =>
      obtain ⟨hFront, -⟩ | ⟨-, hTail⟩ := List.append_eq_singleton_iff.1 hText
      · exact hFront
      · cases hTail
  | pair =>
      cases front with
      | nil => rfl
      | cons d front =>
          obtain ⟨-, hRest⟩ := List.cons.inj hText
          obtain ⟨-, hTail⟩ | ⟨-, hTail⟩ := List.append_eq_singleton_iff.1 hRest
          · exact absurd (List.cons.inj hTail).1 hFeed
          · cases hTail

/-- No line ends before a character that its own line ends after. -/
private theorem endsBefore_inside {body terminator rest before tail : List Char} {c : Char}
    (hBody : ∀ d ∈ body, d ∉ lineEnds) (hEnd : Terminator terminator rest)
    (hPiece : body ++ terminator = before ++ c :: tail) (hFeed : c ≠ '\n') (after : List Char) :
    endsBefore before after = 0 := by
  apply endsBefore_body
  rcases List.append_eq_append_iff.1 hPiece with ⟨head, hBefore, hHead⟩ | ⟨more, hMore, -⟩
  · rw [hHead] at hEnd
    rw [hBefore, hEnd.eq_nil_of_append hFeed, List.append_nil]
    exact hBody
  · exact fun d hMem => hBody d (by simp [hMore, hMem])

/-- **The place of a character** that is no line feed: before its own piece there are as many pieces
as display lines end before it. -/
theorem Splits.exists_place {cs : List Char} {pieces : List (List Char)}
    (hSplits : Splits cs pieces) {before after : List Char} {c : Char}
    (hText : before ++ c :: after = cs) (hFeed : c ≠ '\n') :
    ∃ front head tail back, pieces = front ++ (head ++ c :: tail) :: back ∧
      before = front.flatten ++ head ∧ front.length = endsBefore before (c :: after) := by
  induction hSplits generalizing before with
  | nil => exact absurd hText (by simp)
  | @last body hSome hBody =>
      refine ⟨[], before, after, [], by rw [hText]; rfl, rfl, ?_⟩
      rw [endsBefore_body fun d hMem => hBody d (by simp [← hText, hMem])]
      rfl
  | @cons body terminator rest pieces hBody hEnd hRest ih =>
      -- The character is in the first piece or in the text behind it.
      have hSides : (∃ tail, body ++ terminator = before ++ c :: tail) ∨
          ∃ more, before = body ++ terminator ++ more ∧ more ++ c :: after = rest := by
        rcases List.append_eq_append_iff.1 hText with ⟨more, hMore, hRest⟩ | ⟨more, hMore, hRest⟩
        · cases more with
          | nil => exact .inr ⟨[], by simpa using hMore.symm, hRest⟩
          | cons d tail =>
              obtain ⟨rfl, -⟩ := List.cons.inj hRest
              exact .inl ⟨tail, hMore⟩
        · exact .inr ⟨more, hMore, hRest.symm⟩
      rcases hSides with ⟨tail, hPiece⟩ | ⟨more, rfl, hMore⟩
      · refine ⟨[], before, tail, pieces, by rw [hPiece]; rfl, rfl, ?_⟩
        rw [endsBefore_inside hBody hEnd hPiece hFeed]
        rfl
      · obtain ⟨front, head, tail, back, hPieces, hBefore, hCount⟩ := ih hMore
        refine ⟨(body ++ terminator) :: front, head, tail, back, by rw [hPieces]; rfl, ?_, ?_⟩
        · rw [List.flatten_cons, hBefore]
          simp only [List.append_assoc]
        · rw [endsBefore_append, endsBefore_append, hMore, endsBefore_body hBody,
            endsBefore_terminator hEnd, ← hCount, List.length_cons]
          omega

/-! ## Lines by number -/

theorem Line.numbered_append (number offset : Nat) (front back : List (List Char)) :
    numbered number offset (front ++ back) =
      numbered number offset front ++
        numbered (number + front.length) (offset + front.flatten.length) back := by
  induction front generalizing number offset with
  | nil => rfl
  | cons line front ih =>
      rw [List.cons_append, numbered, numbered, ih, List.length_cons, List.flatten_cons,
        List.length_append, List.cons_append, Nat.add_assoc, Nat.add_assoc, Nat.add_comm 1]

theorem Line.offset_le_of_mem_numbered {number offset : Nat} {pieces : List (List Char)}
    {line : Line} (hMem : line ∈ numbered number offset pieces) : offset ≤ line.offset := by
  induction pieces generalizing number offset with
  | nil => cases hMem
  | cons piece pieces ih =>
      rcases List.mem_cons.1 hMem with rfl | hLater
      · exact Nat.le_refl _
      · exact Nat.le_trans (Nat.le_add_right _ _) (ih hLater)

/-- **The line that holds a character** is that of its piece. -/
theorem Line.holding_eq {cs : List Char} {front back : List (List Char)} {piece : List Char}
    (hPieces : splitLines cs = front ++ piece :: back) {place : Nat}
    (hPlace : place < piece.length) :
    holding (ofText cs) (front.flatten.length + place) =
      ⟨1 + front.length, front.flatten.length, piece⟩ := by
  have hLater : ∀ (lines : List Line) (found : Line),
      (∀ line ∈ lines, front.flatten.length + place < line.offset) →
        lines.foldl (fun found line =>
          if line.offset ≤ front.flatten.length + place then line else found) found = found := by
    intro lines
    induction lines with
    | nil => intro found _; rfl
    | cons line lines ih =>
        intro found hBehind
        obtain ⟨hFirst, hRest⟩ := List.forall_mem_cons.1 hBehind
        rw [List.foldl_cons, if_neg (Nat.not_le.2 hFirst), ih found hRest]
  rw [holding, ofText, hPieces, numbered_append, List.foldl_append, numbered, List.foldl_cons,
    Nat.zero_add, if_pos (Nat.le_add_right _ _)]
  apply hLater
  intro line hMem
  have hOffset := offset_le_of_mem_numbered hMem
  omega

/-- A row and a column that tell the place of a character, both counted from one. -/
structure Locates (cs : List Char) (row column : Nat) (before : List Char) (c : Char)
    (after : List Char) : Prop where
  text : before ++ c :: after = cs
  positive : 1 ≤ row ∧ 1 ≤ column
  /-- The column-th character of the row-th piece is the character, and stands behind `before`. -/
  found : ∃ pieces piece, (∀ other, Splits cs other ↔ other = pieces) ∧
    pieces[row - 1]? = some piece ∧ piece[column - 1]? = some c ∧
    (pieces.take (row - 1)).flatten ++ piece.take (column - 1) = before
  row_eq : row = 1 + before.count '\n' + extraEnds before (c :: after)

/-- **The line that holds a character locates it**, unless it is a line feed. -/
theorem Line.locates_holding {cs before after : List Char} {c : Char}
    (hText : before ++ c :: after = cs) (hFeed : c ≠ '\n') :
    Locates cs (holding (ofText cs) before.length).number
      (before.length - (holding (ofText cs) before.length).offset + 1) before c after := by
  obtain ⟨front, head, tail, back, hPieces, rfl, hCount⟩ :=
    (splits_splitLines cs).exists_place hText hFeed
  have hPlace : head.length < (head ++ c :: tail).length := by simp
  have hLine := holding_eq hPieces hPlace
  rw [← List.length_append] at hLine
  rw [hLine]
  refine ⟨hText, ⟨Nat.le_add_right _ _, Nat.le_add_left _ _⟩, ?_, ?_⟩
  · refine ⟨_, head ++ c :: tail, fun other => splits_iff, ?_⟩
    rw [hPieces]
    simp
  · show 1 + front.length = _
    rw [hCount, endsBefore, Nat.add_assoc]

end Text

/-! ## Reports of errors -/

/-- How a pretty report begins: with a title that names a line, and then the path with a row and a
column. -/
def Report.Begins (text : List Char) (color : Bool) (path : String) (line row column : Nat) :
    Prop :=
  ∃ margin rest,
    text = Piece.renderAll color [Ink.error.paint "Error:".toList] ++
      " line ".toList ++ Nat.toDigits 10 line ++ '\n' :: List.replicate margin ' ' ++
      Piece.renderAll color [Ink.frame.paint ['╭'], Ink.frame.paint ['─'], Ink.frame.paint ['[']] ++
      ' ' :: path.toList ++ ':' :: Nat.toDigits 10 row ++ ':' :: Nat.toDigits 10 column ++
      ' ' :: Piece.renderAll color [Ink.frame.paint [']']] ++ '\n' :: rest

theorem Piece.renderAll_plain_cons (color : Bool) (text : List Char) (drawing : List Piece) :
    renderAll color (plain text :: drawing) = text ++ renderAll color drawing := by
  cases color
  · rfl
  · rfl

theorem Excerpt.begins_drawing (x : Excerpt) (color : Bool) :
    Report.Begins (Piece.renderAll color x.drawing) color x.path x.error.span.line x.row
      x.column := by
  let body := if x.first.number = x.last.number then x.singleLine else x.severalLines
  refine ⟨x.numberWidth + 2, Piece.renderAll color (.plain (spaces (x.numberWidth + 2)) ::
    [Ink.frame.paint ['│'], endOfLine] ++ body ++ x.footing), ?_⟩
  have hDrawing : x.drawing = x.title ++ x.heading ++ body ++ x.footing := rfl
  rw [hDrawing, title, heading]
  -- The words are only carried along, and stay closed.
  generalize "Error:".toList = error
  generalize " line ".toList = line
  have hCons (p : Piece) (drawing : List Piece) :
      Piece.renderAll color (p :: drawing) = p.render color ++ Piece.renderAll color drawing :=
    List.flatMap_cons
  have hNil : Piece.renderAll color [] = [] := rfl
  simp only [List.cons_append, List.nil_append, List.append_assoc, Piece.renderAll_plain_cons,
    hCons (Ink.paint _ _), hNil, endOfLine, spaces, List.append_nil]

/-- Where an error of a scan begins: at the unexpected character, or at a quote. -/
theorem exists_place_of_error {source : String} {e : LexicalError}
    (hMem : e ∈ (scan source).errors) :
    ∃ before c after, before ++ c :: after = source.toList ∧
      Text.byteLength before = e.span.start ∧ c ≠ '\n' ∧
      (e.fault = .unexpectedCharacter c ∨ e.fault = .unterminatedString ∧ c = '"') := by
  cases hFault : e.fault with
  | unexpectedCharacter c =>
      obtain ⟨before, after, hText, hStart, -, hUnknown⟩ :=
        ((explains_scan source).unexpected_iff c e.span.start).1 ⟨e, hMem, hFault, rfl⟩
      refine ⟨before, c, after, hText, hStart, ?_, .inl rfl⟩
      rintro rfl
      exact absurd (by decide) hUnknown
  | unterminatedString =>
      obtain ⟨-, before, body, -, -, hText, -, -, hStart, -⟩ := unterminated_of_scan hMem hFault
      exact ⟨before, '"', body, hText, hStart.symm, by decide, .inr ⟨rfl, rfl⟩⟩

theorem LexicalError.line_of_unexpected {source : String} {e : LexicalError} {c : Char}
    (hMem : e ∈ (scan source).errors) (hFault : e.fault = .unexpectedCharacter c)
    {before after : List Char} (hText : before ++ after = source.toList)
    (hStart : Text.byteLength before = e.span.start) : e.span.line = 1 + before.count '\n' := by
  obtain ⟨counted, hCounted, hLine⟩ := exists_numberedBy (Scan.error_mem_marks hMem)
  have hBefore : Text.takeBytes? e.span.start source.toList = some before :=
    Text.takeBytes?_eq_some_iff.2 ⟨after, hText, hStart⟩
  rw [hCounted.unique (.unexpected hFault hBefore)] at hLine
  exact hLine

theorem Excerpt.label_start (path : String) {cs : List Char} {e : LexicalError}
    {before after : List Char} (hText : before ++ after = cs)
    (hStart : Text.byteLength before = e.span.start) :
    (ofError path cs e).label.start = before.length := by
  have hBefore : Text.takeBytes? e.span.start cs = some before :=
    Text.takeBytes?_eq_some_iff.2 ⟨after, hText, hStart⟩
  show (Text.takeBytes? e.span.start cs).elim 0 List.length = _
  rw [hBefore]
  rfl

/-- **A pretty report points at the offending text.** Behind the path it tells a row and a column
that locate the character with which the error begins, which is the unexpected character, or the
quote of the open string. The row counts all display lines that end before it; so for an unexpected
character it is the line in the title if and only if no line ends before it in another way than by a
line feed. -/
theorem report_location (path source : String) (color : Bool) {e : LexicalError}
    (hMem : e ∈ (scan source).errors) :
    ∃ row column before c after,
      Report.Begins (Report.error ⟨path, source, .pretty, color⟩ e) color path e.span.line row
        column ∧
      Text.Locates source.toList row column before c after ∧
      Text.byteLength before = e.span.start ∧
      (e.fault = .unexpectedCharacter c ∨ e.fault = .unterminatedString ∧ c = '"') ∧
      (e.fault = .unexpectedCharacter c →
        (row = e.span.line ↔ Text.extraEnds before (c :: after) = 0)) := by
  obtain ⟨before, c, after, hText, hStart, hFeed, hFault⟩ := exists_place_of_error hMem
  have hLabel := Excerpt.label_start path hText hStart
  have hLocates := Text.Line.locates_holding hText hFeed
  rw [← hLabel] at hLocates
  refine ⟨_, _, before, c, after,
    (Excerpt.ofError path source.toList e).begins_drawing color, hLocates, hStart, hFault, ?_⟩
  intro hUnexpected
  have hLine := LexicalError.line_of_unexpected hMem hUnexpected hText hStart
  have hRow := hLocates.row_eq
  show (Excerpt.ofError path source.toList e).first.number = e.span.line ↔ _
  have hFirst : (Excerpt.ofError path source.toList e).first.number =
    1 + before.count '\n' + Text.extraEnds before (c :: after) := hRow
  omega

/-- A pair, a carriage return and a line separator before the character: one of the three line ends
has a line feed. -/
theorem report_location_separator :
    (⟨.unexpectedCharacter '@', ⟨6, 7, 2⟩⟩ : LexicalError) ∈ (scan "\r\n\r\u2028@").errors ∧
      ∃ column, Report.Begins
        (Report.error ⟨"a.lox", "\r\n\r\u2028@", .pretty, true⟩
          ⟨.unexpectedCharacter '@', ⟨6, 7, 2⟩⟩)
        true "a.lox" 2 4 column := by
  have hMem : (⟨.unexpectedCharacter '@', ⟨6, 7, 2⟩⟩ : LexicalError) ∈
      (scan "\r\n\r\u2028@").errors := by decide +kernel
  obtain ⟨row, column, before, c, after, hBegins, hLocates, hStart, -⟩ :=
    report_location "a.lox" "\r\n\r\u2028@" true hMem
  have hSource : before ++ c :: after = ['\r', '\n', '\r', '\u2028'] ++ ['@'] := hLocates.text
  obtain ⟨rfl, hRest⟩ := Text.append_inj_of_byteLength hSource hStart
  obtain ⟨rfl, rfl⟩ := List.cons.inj hRest
  have hRow : row = 4 := hLocates.row_eq
  rw [hRow] at hBegins
  exact ⟨hMem, column, hBegins⟩

end LoxLexer
