import LoxLexer.LexicalError
import LoxLexer.Report.Cell
import LoxLexer.Report.Piece
import LoxLexer.Text.CharacterRange

/-!
# Annotated excerpts

An excerpt shows an error in its place: a title, the path with the row and column of the offending
text, the source line with that text in red, and under it a mark that leads to the message. If the
offending text reaches over several lines, the first and the last of them are shown, joined by an
arrow at the left.

The excerpt counts characters, not bytes, and its rows are display lines; so its row can differ
from the line in the title, which counts only the line feeds of the source. Marks are laid out by
display columns: a tab reaches to the next multiple of four and a wide character takes two.
-/

namespace LoxLexer

open Text (CharacterRange Line)

/-- An error, its place among the characters of the source, and the display lines on which that
begins and ends. -/
structure Excerpt where
  path : String
  error : LexicalError
  label : CharacterRange
  first : Line
  last : Line
deriving DecidableEq, Repr

namespace Excerpt

/-- The excerpt of a source that shows an error. -/
def ofError (path : String) (source : List Char) (e : LexicalError) : Excerpt :=
  let lines := Line.ofText source
  let label := CharacterRange.ofBytes e.span.start e.span.stop source
  ⟨path, e, label, Line.holding lines label.start,
    Line.holding lines (max label.start (label.stop - 1))⟩

/-- The number of the display line on which the offending text begins. -/
def row (x : Excerpt) : Nat := x.first.number

/-- The place of the offending text in its display line, counted from one. -/
def column (x : Excerpt) : Nat := x.label.start - x.first.offset + 1

/-- How many columns the line numbers take. -/
def numberWidth (x : Excerpt) : Nat :=
  (Nat.toDigits 10 x.last.number).length

/-- A run of spaces. -/
def spaces (n : Nat) : List Char := List.replicate n ' '

/-- The end of a line of the drawing. -/
def endOfLine : Piece := .plain ['\n']

/-- The title: the line of the error as the error itself counts it. -/
def title (x : Excerpt) : List Piece :=
  [Ink.error.paint "Error:".toList,
    .plain (" line ".toList ++ Nat.toDigits 10 x.error.span.line ++ ['\n'])]

/-- The path with row and column, in the upper edge of the frame. -/
def heading (x : Excerpt) : List Piece :=
  let place := ' ' :: x.path.toList ++ ':' :: Nat.toDigits 10 x.row ++ ':' ::
    Nat.toDigits 10 x.column ++ [' ']
  [.plain (spaces (x.numberWidth + 2)), Ink.frame.paint ['╭'], Ink.frame.paint ['─'],
    Ink.frame.paint ['['], .plain place, Ink.frame.paint [']'], endOfLine,
    .plain (spaces (x.numberWidth + 2)), Ink.frame.paint ['│'], endOfLine]

/-- The lower edge of the frame. -/
def footing (x : Excerpt) : List Piece :=
  [Ink.frame.paint (List.replicate (x.numberWidth + 2) '─' ++ ['╯']), endOfLine]

/-- The margin of a source line, with its number. -/
def numbered (x : Excerpt) (line : Line) : List Piece :=
  let number := (Nat.toDigits 10 line.number).leftpad x.numberWidth ' '
  [.plain [' '], Ink.frame.paint (number ++ " │".toList), .plain [' ']]

/-- The margin of a line that holds marks only, with the given bar. -/
def unnumbered (x : Excerpt) (bar : Char) : List Piece :=
  [.plain [' '], Ink.gutter.paint (spaces (x.numberWidth + 1) ++ [bar]), .plain [' ']]

/-- The text of a line, each character by itself, the offending ones in red. -/
def sourceText (x : Excerpt) (line : Line) : List Piece :=
  (line.cells.mapIdx fun place cell =>
    let ink := if x.label.covers (line.offset + place) then Ink.error else Ink.source
    List.replicate cell.copies (ink.paint [cell.glyph])).flatten

/-- Marks under the places of a line: each place gets its head in its first column and its tail in
the others, and one without columns gets nothing. -/
def marks (widths : List Nat) (mark : Nat → Piece × Piece) : List Piece :=
  (widths.mapIdx fun place width =>
    if width = 0 then []
    else (mark place).1 :: List.replicate (width - 1) (mark place).2).flatten

/-- How many places get marks: up to the end of the offending text, and two more. -/
def markedPlaces (x : Excerpt) : Nat := x.label.stop - x.first.offset + 2

/-- The place at which the mark leads down to the message: the middle of the offending text. -/
def middle (x : Excerpt) : Nat := (x.label.start + x.label.stop) / 2 - x.first.offset

/-- The mark that underlines the offending text. -/
def underline (x : Excerpt) (place : Nat) : Piece × Piece :=
  let inside := x.label.covers (x.first.offset + place)
  if place = x.middle then
    if inside then (Ink.error.paint ['┬'], Ink.error.paint ['─'])
    else (Ink.error.paint ['│'], Ink.error.paint [' '])
  else if inside then (Ink.error.paint ['─'], Ink.error.paint ['─'])
  else (.plain [' '], .plain [' '])

/-- The mark that leads from the underlined text to the message. -/
def leader (x : Excerpt) (place : Nat) : Piece × Piece :=
  if place = x.middle then (Ink.error.paint ['╰'], Ink.error.paint ['─'])
  else if x.middle < place then (Ink.error.paint ['─'], Ink.error.paint ['─'])
  else (.plain [' '], .plain [' '])

/-- The message, at the end of its line. -/
def message (x : Excerpt) : Piece :=
  .plain (' ' :: x.error.fault.message.toList ++ ['\n'])

/-- The body of an excerpt whose offending text stands on one line. -/
def singleLine (x : Excerpt) : List Piece :=
  let widths := x.first.widths x.markedPlaces
  x.numbered x.first ++ x.sourceText x.first ++ [endOfLine] ++
    x.unnumbered '│' ++ marks widths x.underline ++ [endOfLine] ++
    x.unnumbered '│' ++ marks widths x.leader ++ [x.message]

/-- A red arrow that begins with the given corner. -/
def arrow (corner : Char) : List Piece :=
  [corner, '─', '▶', ' '].map fun c => Ink.error.paint [c]

/-- The body of an excerpt whose offending text reaches over several lines: the first, a gap if
there are others between, the last, and the message under the end of that. -/
def severalLines (x : Excerpt) : List Piece :=
  let width := (x.last.widths (x.last.text.length + 2)).foldl (· + ·) 0
  let gap :=
    if x.first.number + 1 < x.last.number then
      x.unnumbered '┆' ++ [Ink.error.paint ['┆'], .plain (spaces 3), endOfLine]
    else []
  x.numbered x.first ++ arrow '╭' ++ x.sourceText x.first ++ [endOfLine] ++ gap ++
    x.numbered x.last ++ arrow '├' ++ x.sourceText x.last ++ [endOfLine] ++
    x.unnumbered '│' ++ [Ink.error.paint ['│'], .plain (spaces 3), .plain (spaces width),
      endOfLine] ++
    x.unnumbered '│' ++ Ink.error.paint ['╰'] ::
      List.replicate (3 + width) (Ink.error.paint ['─']) ++ [x.message]

/-- The whole excerpt. -/
def drawing (x : Excerpt) : List Piece :=
  x.title ++ x.heading ++
    (if x.first.number = x.last.number then x.singleLine else x.severalLines) ++ x.footing

end Excerpt

end LoxLexer
