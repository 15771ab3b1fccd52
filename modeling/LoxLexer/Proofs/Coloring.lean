import LoxLexer.Proofs.Grammar
import LoxLexer.Report

/-!
# What colour adds to a report

A pretty report is drawn before it is coloured, and colour puts escape sequences around the inked
pieces of the drawing. If no piece holds an escape character of its own, these sequences are all
that a reader of the coloured report can take for one; so when they are removed again, the report
without colour is left, character for character (`Piece.withoutColors_renderAll`).

What remains is to see that a drawing holds no escape character unless it is given one
(`Excerpt.unescaped_drawing`). Apart from signs, numbers and blanks it shows the path, the message
and characters of the source, whatever the place of the error: the lines that it shows are lines of
the source even if the span is not one of the source's.
-/

namespace LoxLexer

namespace Text

/-! ## Removing colour sequences -/

/-- The text behind the parameters of a colour sequence, if digits and semicolons up to an `m` are
what the text begins with. -/
def afterParameters? : List Char → Option (List Char)
  | [] => none
  | c :: cs =>
      if c = 'm' then some cs
      else if c.isDigit || c = ';' then afterParameters? cs
      else none

/-- The text behind a colour sequence: an escape character, a bracket, and parameters. -/
def afterColor? : List Char → Option (List Char)
  | '\x1b' :: '[' :: cs => afterParameters? cs
  | _ => none

theorem afterParameters?_eq_some_iff {cs rest : List Char} :
    afterParameters? cs = some rest ↔
      ∃ code, (∀ c ∈ code, Digit c ∨ c = ';') ∧ cs = code ++ 'm' :: rest := by
  induction cs with
  | nil => simp [afterParameters?]
  | cons c cs ih =>
      have hParameter : (c.isDigit || decide (c = ';')) = true ↔ Digit c ∨ c = ';' := by
        rw [Bool.or_eq_true, isDigit_eq_true_iff, decide_eq_true_iff]
      constructor
      · intro hAfter
        rw [afterParameters?] at hAfter
        split at hAfter
        case isTrue hFinal =>
            refine ⟨[], by simp, ?_⟩
            rw [hFinal, Option.some.inj hAfter]
            rfl
        case isFalse =>
            split at hAfter
            case isTrue hMore =>
                obtain ⟨code, hCode, hText⟩ := ih.1 hAfter
                refine ⟨c :: code, List.forall_mem_cons.2 ⟨hParameter.1 hMore, hCode⟩, ?_⟩
                rw [hText, List.cons_append]
            case isFalse => cases hAfter
      · intro hForm
        obtain ⟨code, hCode, hText⟩ := hForm
        cases code with
        | nil =>
            obtain ⟨rfl, rfl⟩ := List.cons.inj hText
            exact if_pos rfl
        | cons d code =>
            obtain ⟨rfl, rfl⟩ := List.cons.inj hText
            have hFirst := hCode c List.mem_cons_self
            have hFinal : c ≠ 'm' := by
              rintro rfl
              exact absurd hFirst (by decide)
            rw [afterParameters?, if_neg hFinal, if_pos (hParameter.2 hFirst)]
            exact ih.2 ⟨code, fun x hMem => hCode x (List.mem_cons_of_mem c hMem), rfl⟩

/-- **What is taken for a colour sequence**: an escape character, a bracket, any digits and
semicolons, and an `m`. -/
theorem afterColor?_eq_some_iff {cs rest : List Char} :
    afterColor? cs = some rest ↔
      ∃ code, (∀ c ∈ code, Digit c ∨ c = ';') ∧ cs = '\x1b' :: '[' :: code ++ 'm' :: rest := by
  unfold afterColor?
  split
  case h_1 parameters =>
      rw [afterParameters?_eq_some_iff]
      simp
  case h_2 hOther =>
      constructor
      · intro hNone
        cases hNone
      · intro hForm
        obtain ⟨code, -, hText⟩ := hForm
        exact absurd hText (hOther _)

theorem length_afterColor? {cs rest : List Char} (hColor : afterColor? cs = some rest) :
    rest.length < cs.length := by
  obtain ⟨code, -, rfl⟩ := afterColor?_eq_some_iff.1 hColor
  simp
  omega

/-- A text without its colour sequences. -/
def withoutColors : List Char → List Char
  | [] => []
  | c :: cs =>
      match _hColor : afterColor? (c :: cs) with
      | some rest => withoutColors rest
      | none => c :: withoutColors cs
termination_by cs => cs.length
decreasing_by
  · exact length_afterColor? _hColor
  · exact Nat.lt_succ_self cs.length

theorem withoutColors_cons_of_ne {c : Char} (hEscape : c ≠ '\x1b') (cs : List Char) :
    withoutColors (c :: cs) = c :: withoutColors cs := by
  have hNone : afterColor? (c :: cs) = none := by
    rw [Option.eq_none_iff_forall_ne_some]
    intro rest hColor
    obtain ⟨code, -, hText⟩ := afterColor?_eq_some_iff.1 hColor
    exact hEscape (List.cons.inj hText).1
  rw [withoutColors]
  split
  case h_1 hColor => rw [hNone] at hColor; cases hColor
  case h_2 => rfl

/-- A text without an escape character is left as it is. -/
theorem withoutColors_append {cs : List Char} (hEscape : '\x1b' ∉ cs) (rest : List Char) :
    withoutColors (cs ++ rest) = cs ++ withoutColors rest := by
  induction cs with
  | nil => rfl
  | cons c cs ih =>
      have hFirst : c ≠ '\x1b' := (List.ne_of_not_mem_cons hEscape).symm
      rw [List.cons_append, withoutColors_cons_of_ne hFirst, ih (List.not_mem_of_not_mem_cons hEscape),
        List.cons_append]

/-- A colour sequence in front of a text is removed. -/
theorem withoutColors_sequence {code : List Char} (hCode : ∀ c ∈ code, Digit c ∨ c = ';')
    (rest : List Char) :
    withoutColors (Piece.escapeSequence code ++ rest) = withoutColors rest := by
  have hAfter : afterColor? ('\x1b' :: ('[' :: code ++ ['m'] ++ rest)) = some rest :=
    afterColor?_eq_some_iff.2 ⟨code, hCode, by simp⟩
  show withoutColors ('\x1b' :: ('[' :: code ++ ['m'] ++ rest)) = _
  rw [withoutColors]
  split
  case h_1 found hColor => rw [Option.some.inj (hColor.symm.trans hAfter)]
  case h_2 hColor => rw [hAfter] at hColor; cases hColor

end Text

/-! ## Coloured drawings -/

/-- The parameters of an ink are numbers with semicolons between them. -/
theorem Ink.parameters (ink : Ink) : ∀ c ∈ ink.code, Digit c ∨ c = ';' := by
  have hCode : (ink.code.all fun c => c.isDigit || c = ';') = true := by
    cases ink
    all_goals decide
  intro c hMem
  simpa [isDigit_eq_true_iff] using List.all_eq_true.1 hCode c hMem

namespace Piece

/-- Pieces that hold no escape character of their own. -/
def Unescaped (drawing : List Piece) : Prop := ∀ p ∈ drawing, '\x1b' ∉ p.text

@[simp] theorem unescaped_nil : Unescaped [] := List.forall_mem_nil _

@[simp] theorem unescaped_cons {p : Piece} {drawing : List Piece} :
    Unescaped (p :: drawing) ↔ '\x1b' ∉ p.text ∧ Unescaped drawing :=
  List.forall_mem_cons

@[simp] theorem unescaped_append {left right : List Piece} :
    Unescaped (left ++ right) ↔ Unescaped left ∧ Unescaped right :=
  List.forall_mem_append

theorem unescaped_flatten {rows : List (List Piece)} (hRows : ∀ row ∈ rows, Unescaped row) :
    Unescaped rows.flatten := by
  intro p hMem
  obtain ⟨row, hRow, hPiece⟩ := List.mem_flatten.1 hMem
  exact hRows row hRow p hPiece

theorem unescaped_replicate {p : Piece} (hText : '\x1b' ∉ p.text) (n : Nat) :
    Unescaped (List.replicate n p) := by
  intro q hMem
  rw [List.eq_of_mem_replicate hMem]
  exact hText

theorem withoutColors_render {p : Piece} (hText : '\x1b' ∉ p.text) (rest : List Char) :
    Text.withoutColors (p.render true ++ rest) = p.text ++ Text.withoutColors rest := by
  obtain ⟨ink, text⟩ := p
  cases ink with
  | none => exact Text.withoutColors_append hText rest
  | some ink =>
      have hReset : ∀ c ∈ ['0'], Digit c ∨ c = ';' := by simp [Digit]
      show Text.withoutColors (escapeSequence ink.code ++ text ++ escapeSequence ['0'] ++ rest) = _
      rw [List.append_assoc, List.append_assoc, Text.withoutColors_sequence ink.parameters,
        Text.withoutColors_append hText, Text.withoutColors_sequence hReset]

/-- **Colour is nothing but escape sequences**: without them a coloured drawing is the drawing
without colour. -/
theorem withoutColors_renderAll {drawing : List Piece} (hDrawing : Unescaped drawing)
    (rest : List Char) :
    Text.withoutColors (renderAll true drawing ++ rest) =
      renderAll false drawing ++ Text.withoutColors rest := by
  induction drawing with
  | nil => rfl
  | cons p drawing ih =>
      have hParts := List.forall_mem_cons.1 hDrawing
      have hTail := ih hParts.2
      rw [renderAll_false] at hTail ⊢
      show Text.withoutColors (p.render true ++ renderAll true drawing ++ rest) = _
      rw [List.append_assoc, withoutColors_render hParts.1, hTail, List.flatMap_cons,
        List.append_assoc]

theorem escape_notMem_renderAll {drawing : List Piece} (hDrawing : Unescaped drawing) :
    '\x1b' ∉ renderAll false drawing := by
  rw [renderAll_false, List.mem_flatMap]
  intro hMem
  obtain ⟨p, hPiece, hText⟩ := hMem
  exact hDrawing p hPiece hText

end Piece

/-! ## What a drawing shows -/

theorem escape_notMem_toDigits (n : Nat) : '\x1b' ∉ Nat.toDigits 10 n := by
  intro hMem
  exact absurd (Decimal.isDigit_of_mem_toDigits hMem) (by decide)

theorem mem_of_mem_trimEnd {c : Char} {cs : List Char} (hMem : c ∈ Text.trimEnd cs) : c ∈ cs := by
  rw [Text.trimEnd, List.mem_reverse] at hMem
  exact List.mem_reverse.1 ((List.dropWhile_sublist _).mem hMem)

/-- A message holds no character that is not offensive, apart from its words. -/
theorem escape_notMem_fault {fault : Fault} (hFault : fault ≠ .unexpectedCharacter '\x1b') :
    '\x1b' ∉ fault.message.toList := by
  cases fault with
  | unexpectedCharacter c =>
      have hCharacter : '\x1b' ≠ c := by
        intro hEscape
        exact hFault (congrArg _ hEscape.symm)
      have hWords : '\x1b' ∉ "Unexpected character: ".toList := by decide
      have hText : (Fault.unexpectedCharacter c).message.toList =
          "Unexpected character: ".toList ++ [c] :=
        String.toList_append.trans (congrArg _ (String.toList_singleton c))
      rw [hText, List.mem_append, List.mem_singleton]
      exact not_or.2 ⟨hWords, hCharacter⟩
  | unterminatedString => decide

namespace Excerpt

open Text (Line)

theorem escape_notMem_spaces (n : Nat) : '\x1b' ∉ spaces n := by
  intro hMem
  exact absurd (List.eq_of_mem_replicate hMem) (by decide)

theorem unescaped_title (x : Excerpt) : Piece.Unescaped x.title := by
  have hLine := escape_notMem_toDigits x.error.span.line
  simp [title, Piece.plain, Ink.paint, hLine]

theorem unescaped_heading (x : Excerpt) (hPath : '\x1b' ∉ x.path.toList) :
    Piece.Unescaped x.heading := by
  have hMargin := escape_notMem_spaces (x.numberWidth + 2)
  have hRow := escape_notMem_toDigits x.row
  have hColumn := escape_notMem_toDigits x.column
  simp [heading, endOfLine, Piece.plain, Ink.paint, hMargin, hPath, hRow, hColumn]

theorem unescaped_footing (x : Excerpt) : Piece.Unescaped x.footing := by
  simp [footing, endOfLine, Piece.plain, Ink.paint]

theorem unescaped_numbered (x : Excerpt) (line : Line) : Piece.Unescaped (x.numbered line) := by
  have hNumber := escape_notMem_toDigits line.number
  simp [numbered, Piece.plain, Ink.paint, List.leftpad, hNumber]

theorem unescaped_unnumbered (x : Excerpt) (bar : Char) (hBar : bar ≠ '\x1b') :
    Piece.Unescaped (x.unnumbered bar) := by
  have hMargin := escape_notMem_spaces (x.numberWidth + 1)
  simp [unnumbered, Piece.plain, Ink.paint, hMargin, hBar.symm]

theorem escape_notMem_message (x : Excerpt)
    (hFault : x.error.fault ≠ .unexpectedCharacter '\x1b') : '\x1b' ∉ x.message.text := by
  have hText := escape_notMem_fault hFault
  show '\x1b' ∉ ' ' :: x.error.fault.message.toList ++ ['\n']
  generalize x.error.fault.message.toList = text at hText
  simp [hText]

/-- White space is drawn as spaces and any other character as itself. -/
theorem glyph_mem_of_mem_cells {line : Line} {cell : Cell} (hMem : cell ∈ line.cells) :
    cell.glyph = ' ' ∨ cell.glyph ∈ line.text := by
  obtain ⟨place, hPlace, hCell⟩ := List.mem_mapIdx.1 hMem
  have hText := mem_of_mem_trimEnd (List.getElem_mem hPlace)
  rw [← hCell, Cell.ofChar]
  split
  · exact .inl rfl
  split
  · exact .inl rfl
  · exact .inr hText

theorem unescaped_sourceText (x : Excerpt) {line : Line} (hText : '\x1b' ∉ line.text) :
    Piece.Unescaped (x.sourceText line) := by
  apply Piece.unescaped_flatten
  intro row hRow
  obtain ⟨place, hPlace, rfl⟩ := List.mem_mapIdx.1 hRow
  apply Piece.unescaped_replicate
  intro hMem
  have hGlyph : '\x1b' = (line.cells[place]).glyph := List.mem_singleton.1 hMem
  cases glyph_mem_of_mem_cells (List.getElem_mem hPlace) with
  | inl hBlank => exact absurd (hGlyph.trans hBlank) (by decide)
  | inr hShown => exact hText (hGlyph ▸ hShown)

theorem unescaped_marks (widths : List Nat) {mark : Nat → Piece × Piece}
    (hMark : ∀ place, Piece.Unescaped [(mark place).1, (mark place).2]) :
    Piece.Unescaped (marks widths mark) := by
  apply Piece.unescaped_flatten
  intro row hRow
  obtain ⟨place, hPlace, rfl⟩ := List.mem_mapIdx.1 hRow
  have hParts := hMark place
  simp only [Piece.unescaped_cons, Piece.unescaped_nil, and_true] at hParts
  split
  · exact Piece.unescaped_nil
  · exact Piece.unescaped_cons.2 ⟨hParts.1, Piece.unescaped_replicate hParts.2 _⟩

theorem unescaped_underline (x : Excerpt) (place : Nat) :
    Piece.Unescaped [(x.underline place).1, (x.underline place).2] := by
  unfold underline
  dsimp only
  split
  case isTrue => split <;> simp [Ink.paint]
  case isFalse => split <;> simp [Ink.paint, Piece.plain]

theorem unescaped_leader (x : Excerpt) (place : Nat) :
    Piece.Unescaped [(x.leader place).1, (x.leader place).2] := by
  unfold leader
  split
  · simp [Ink.paint]
  split
  · simp [Ink.paint]
  · simp [Piece.plain]

theorem unescaped_arrow (corner : Char) (hCorner : corner ≠ '\x1b') :
    Piece.Unescaped (arrow corner) := by
  simp [arrow, Ink.paint, hCorner.symm]

/-- The body of an excerpt on one line. -/
theorem unescaped_singleLine (x : Excerpt) (hFirst : '\x1b' ∉ x.first.text)
    (hMessage : '\x1b' ∉ x.message.text) : Piece.Unescaped x.singleLine := by
  have hNumber := x.unescaped_numbered x.first
  have hText := x.unescaped_sourceText hFirst
  have hEnd : '\x1b' ∉ endOfLine.text := by decide
  have hBar := x.unescaped_unnumbered '│' (by decide)
  have hUnderline (widths : List Nat) := unescaped_marks widths x.unescaped_underline
  have hLeader (widths : List Nat) := unescaped_marks widths x.unescaped_leader
  simp [singleLine, hNumber, hText, hEnd, hBar, hUnderline, hLeader, hMessage]

/-- The body of an excerpt over several lines, with a gap or without one. -/
theorem unescaped_severalLines (x : Excerpt) (hFirst : '\x1b' ∉ x.first.text)
    (hLast : '\x1b' ∉ x.last.text) (hMessage : '\x1b' ∉ x.message.text) :
    Piece.Unescaped x.severalLines := by
  have hNumber (line : Line) := x.unescaped_numbered line
  have hFirstText := x.unescaped_sourceText hFirst
  have hLastText := x.unescaped_sourceText hLast
  have hEnd : '\x1b' ∉ endOfLine.text := by decide
  have hBar := x.unescaped_unnumbered '│' (by decide)
  have hGapBar := x.unescaped_unnumbered '┆' (by decide)
  have hArrow := unescaped_arrow '╭' (by decide)
  have hLastArrow := unescaped_arrow '├' (by decide)
  have hSpaces (n : Nat) : '\x1b' ∉ (Piece.plain (spaces n)).text := escape_notMem_spaces n
  have hSign {c : Char} (hSign : '\x1b' ≠ c) : '\x1b' ∉ (Ink.error.paint [c]).text :=
    mt List.mem_singleton.1 hSign
  have hDash := Piece.unescaped_replicate (hSign (c := '─') (by decide))
  have hGap : Piece.Unescaped (if x.first.number + 1 < x.last.number then
      x.unnumbered '┆' ++ [Ink.error.paint ['┆'], .plain (spaces 3), endOfLine] else []) := by
    split
    case isTrue => simp [hGapBar, hSpaces, hEnd, hSign]
    case isFalse => exact Piece.unescaped_nil
  simp [severalLines, hNumber, hFirstText, hLastText, hEnd, hBar, hGap, hArrow, hLastArrow,
    hSpaces, hSign, hDash, hMessage]

/-- **A drawing holds no escape character that it is not given**, by the path, the lines that it
shows or the message. -/
theorem unescaped_drawing (x : Excerpt) (hPath : '\x1b' ∉ x.path.toList)
    (hFirst : '\x1b' ∉ x.first.text) (hLast : '\x1b' ∉ x.last.text)
    (hFault : x.error.fault ≠ .unexpectedCharacter '\x1b') : Piece.Unescaped x.drawing := by
  have hMessage := x.escape_notMem_message hFault
  have hBody : Piece.Unescaped
      (if x.first.number = x.last.number then x.singleLine else x.severalLines) := by
    split
    case isTrue => exact x.unescaped_singleLine hFirst hMessage
    case isFalse => exact x.unescaped_severalLines hFirst hLast hMessage
  simp [drawing, unescaped_title, unescaped_heading, unescaped_footing, hPath, hBody]

end Excerpt

/-! ## Lines of the source -/

namespace Text.Line

theorem text_mem_of_mem_numbered {number offset : Nat} {pieces : List (List Char)} {line : Line}
    (hMem : line ∈ numbered number offset pieces) : line.text ∈ pieces := by
  induction pieces generalizing number offset with
  | nil => cases hMem
  | cons piece pieces ih =>
      cases List.mem_cons.1 hMem with
      | inl hHere =>
          rw [hHere]
          exact List.mem_cons_self
      | inr hLater => exact List.mem_cons_of_mem piece (ih hLater)

/-- The line that holds a character is one of the lines, or the empty one. -/
theorem holding_mem (lines : List Line) (character : Nat) :
    holding lines character ∈ first :: lines := by
  have hFound (found : Line) : lines.foldl
      (fun found line => if line.offset ≤ character then line else found) found ∈
        found :: lines := by
    induction lines generalizing found with
    | nil => exact List.mem_cons_self
    | cons line lines ih =>
        rw [List.foldl_cons]
        split
        case isTrue => exact List.mem_cons_of_mem found (ih line)
        case isFalse =>
            cases List.mem_cons.1 (ih found) with
            | inl hSame =>
                rw [hSame]
                exact List.mem_cons_self
            | inr hLater => exact List.mem_cons_of_mem found (List.mem_cons_of_mem line hLater)
  exact hFound first

/-- **A line that is shown is part of the source**, whatever place it is looked up for. -/
theorem mem_of_mem_holding {cs : List Char} {character : Nat} {c : Char}
    (hMem : c ∈ (holding (ofText cs) character).text) : c ∈ cs := by
  cases List.mem_cons.1 (holding_mem (ofText cs) character) with
  | inl hNone =>
      rw [hNone] at hMem
      cases hMem
  | inr hLine =>
      rw [← flatten_splitLines cs]
      exact List.mem_flatten.2 ⟨_, text_mem_of_mem_numbered hLine, hMem⟩

end Text.Line

/-! ## Reports -/

theorem Report.unescaped_drawing {path source : String} {e : LexicalError}
    (hPath : '\x1b' ∉ path.toList) (hSource : '\x1b' ∉ source.toList)
    (hFault : e.fault ≠ .unexpectedCharacter '\x1b') :
    Piece.Unescaped (Excerpt.ofError path source.toList e).drawing :=
  Excerpt.unescaped_drawing _ hPath (mt Text.Line.mem_of_mem_holding hSource)
    (mt Text.Line.mem_of_mem_holding hSource) hFault

/-- The title of an excerpt is coloured. -/
theorem Excerpt.escape_mem_renderAll (x : Excerpt) :
    '\x1b' ∈ Piece.renderAll true x.drawing := by
  rw [drawing, Piece.renderAll_append, Piece.renderAll_append, Piece.renderAll_append]
  have hTitle : '\x1b' ∈ Piece.renderAll true x.title := List.mem_cons_self
  exact List.mem_append_left _ (List.mem_append_left _ (List.mem_append_left _ hTitle))

/-- **Colour adds nothing but escape sequences** to a pretty report. If neither the path nor the
source nor an offending character is an escape character, then removing the colour sequences from the
coloured report leaves the report without colour. In that there is no escape character, while in the
coloured one there are some as soon as there is an error. The errors may be of any kind and at any
place. -/
theorem report_color {path source : String} {errors : List LexicalError}
    (hPath : '\x1b' ∉ path.toList) (hSource : '\x1b' ∉ source.toList)
    (hFaults : ∀ e ∈ errors, e.fault ≠ .unexpectedCharacter '\x1b') :
    Text.withoutColors (Report.text ⟨path, source, .pretty, true⟩ errors) =
        Report.text ⟨path, source, .pretty, false⟩ errors ∧
      '\x1b' ∉ Report.text ⟨path, source, .pretty, false⟩ errors ∧
      (errors ≠ [] → '\x1b' ∈ Report.text ⟨path, source, .pretty, true⟩ errors) := by
  have hDrawings : Piece.Unescaped
      (errors.flatMap fun e => (Excerpt.ofError path source.toList e).drawing) := by
    intro p hMem
    obtain ⟨e, hError, hPiece⟩ := List.mem_flatMap.1 hMem
    exact Report.unescaped_drawing hPath hSource (hFaults e hError) p hPiece
  have hText (color : Bool) : Report.text ⟨path, source, .pretty, color⟩ errors =
      Piece.renderAll color
        (errors.flatMap fun e => (Excerpt.ofError path source.toList e).drawing) :=
    List.flatMap_assoc.symm
  refine ⟨?_, ?_, ?_⟩
  · have hColors := Piece.withoutColors_renderAll hDrawings []
    rw [List.append_nil] at hColors
    rw [hText, hText, hColors, Text.withoutColors, List.append_nil]
  · rw [hText]
    exact Piece.escape_notMem_renderAll hDrawings
  · intro hSome
    obtain ⟨e, rest, rfl⟩ := List.exists_cons_of_ne_nil hSome
    rw [Report.text, List.flatMap_cons]
    exact List.mem_append_left _ (Excerpt.escape_mem_renderAll _)

/-- A tab and a wide character beside an unexpected one, a place over two lines, and one that ends
before it begins. -/
theorem report_color_misplaced :
    let source := "\t@日\n\""
    let errors : List LexicalError :=
      [⟨.unexpectedCharacter '@', ⟨1, 2, 1⟩⟩, ⟨.unterminatedString, ⟨1, 7, 2⟩⟩,
        ⟨.unterminatedString, ⟨6, 1, 9⟩⟩]
    ('\x1b' ∉ "a.lox".toList ∧ '\x1b' ∉ source.toList ∧
        ∀ e ∈ errors, e.fault ≠ .unexpectedCharacter '\x1b') ∧
      Text.withoutColors (Report.text ⟨"a.lox", source, .pretty, true⟩ errors) =
        Report.text ⟨"a.lox", source, .pretty, false⟩ errors := by
  intro source errors
  have hPath : '\x1b' ∉ "a.lox".toList := by decide
  have hSource : '\x1b' ∉ source.toList := by decide
  have hFaults : ∀ e ∈ errors, e.fault ≠ .unexpectedCharacter '\x1b' := by decide
  exact ⟨⟨hPath, hSource, hFaults⟩, (report_color hPath hSource hFaults).1⟩

/-- Only whole colour sequences are removed: an escape character that begins none stays. -/
example : Text.withoutColors "\x1b[1;31ma\x1b[0m\x1b[x".toList = "a\x1b[x".toList := by
  decide +kernel

end LoxLexer
