import LoxLexer.Text.Line
import LoxLexer.Text.WhiteSpace
import LoxLexer.Text.Width

/-!
# Cells

How the characters of a source line are drawn in a display of fixed-width columns. White space is
drawn as spaces, so that a line keeps its shape whatever it holds: a tab reaches to the next place
that is a multiple of four, any other white space is one space. All other characters are drawn as
they are, over as many columns as they take.
-/

namespace LoxLexer

/-- How a character is drawn: which glyph, how often, and over how many columns. -/
structure Cell where
  glyph : Char
  copies : Nat
  width : Nat
deriving DecidableEq, Repr

/-- The cell of the character that is at this place in its line. White space is drawn as spaces: a
tab as those up to the next multiple of four, any other as one. -/
def Cell.ofChar (place : Nat) (c : Char) : Cell :=
  if c = '\t' then ⟨' ', 4 - place % 4, 4 - place % 4⟩
  else if Text.isWhiteSpace c then ⟨' ', 1, 1⟩
  else ⟨c, 1, Text.displayWidth c⟩

/-- The cells of a line. White space at its end, its terminator included, is not drawn. -/
def Text.Line.cells (line : Text.Line) : List Cell :=
  (Text.trimEnd line.text).mapIdx Cell.ofChar

/-- The widths of the first `count` places of a line. A place past the drawn text is one wide. -/
def Text.Line.widths (line : Text.Line) (count : Nat) : List Nat :=
  let drawn := line.cells.map (·.width)
  drawn.take count ++ List.replicate (count - drawn.length) 1

end LoxLexer
