import LoxLexer.Text.Utf8

/-!
# Positions and spans

A position is a byte offset together with the line it is on; lines are counted from one and only
`'\n'` ends one. Reading a text moves a position over it, and reading two texts in a row is
reading their concatenation (`Position.advance_append`), so the position after any part of a
source depends on nothing but the text before it.
-/

namespace LoxLexer

/-- A place in a source: how many bytes stand before it, and the number of its line. -/
structure Position where
  offset : Nat
  line : Nat
deriving DecidableEq, Repr

namespace Position

/-- The beginning of a source. -/
def origin : Position := ⟨0, 1⟩

/-- The position behind a text that is read here. -/
def advance (p : Position) (text : List Char) : Position :=
  ⟨p.offset + Text.byteLength text, p.line + text.count '\n'⟩

@[simp] theorem advance_nil (p : Position) : p.advance [] = p := by
  simp [advance]

theorem advance_append (p : Position) (left right : List Char) :
    p.advance (left ++ right) = (p.advance left).advance right := by
  simp [advance, Nat.add_assoc]

end Position

/-- A range of bytes and a line number. -/
structure Span where
  start : Nat
  stop : Nat
  line : Nat
deriving DecidableEq, Repr

/-- Whether a span holds no byte. A span that ends before it starts holds none either. -/
def Span.isEmpty (s : Span) : Bool :=
  s.stop ≤ s.start

end LoxLexer
