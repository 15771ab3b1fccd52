/-!
# Pieces of a drawing

A drawing is a row of pieces of text, some of them in an ink. Without colour a piece is its text;
with colour an inked piece stands between the escape sequence that sets its ink and the one that
sets all back. What is drawn is decided before it is coloured, so colour can change nothing else.
-/

namespace LoxLexer

/-- What a part of a drawing is, which decides its colour: the error itself, the frame with its line
numbers, the gutter beside the marks, or source text that is not in error. -/
inductive Ink where
  | error | frame | gutter | source
deriving DecidableEq, Repr

/-- The parameters of the escape sequence that sets an ink. -/
def Ink.code : Ink → List Char
  | error => "31".toList
  | frame => "38;5;246".toList
  | gutter => "38;5;240".toList
  | source => "38;5;249".toList

/-- A text in an ink, or in none. -/
structure Piece where
  ink : Option Ink
  text : List Char
deriving DecidableEq, Repr

/-- A text in this ink. -/
def Ink.paint (ink : Ink) (text : List Char) : Piece := ⟨some ink, text⟩

namespace Piece

/-- A text without an ink. -/
def plain (text : List Char) : Piece := ⟨none, text⟩

/-- The escape sequence with the given parameters. -/
def escapeSequence (code : List Char) : List Char :=
  '\x1b' :: '[' :: code ++ ['m']

/-- The text of a piece, with the escape sequences around it if it is to be coloured. -/
def render (color : Bool) (p : Piece) : List Char :=
  match color, p.ink with
  | true, some ink => escapeSequence ink.code ++ p.text ++ escapeSequence ['0']
  | _, _ => p.text

/-- The text of a drawing. -/
def renderAll (color : Bool) (drawing : List Piece) : List Char :=
  drawing.flatMap (render color)

theorem renderAll_append (color : Bool) (left right : List Piece) :
    renderAll color (left ++ right) = renderAll color left ++ renderAll color right := by
  simp [renderAll]

/-- Without colour a drawing is the text of its pieces. -/
theorem renderAll_false (drawing : List Piece) :
    renderAll false drawing = drawing.flatMap (·.text) := rfl

end Piece

end LoxLexer
