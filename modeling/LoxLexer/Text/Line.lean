/-!
# Display lines

For display a text is split after every line terminator of Unicode: carriage return and line feed,
alone or as a pair, vertical tab, form feed, next line, and the line and paragraph separators.
Each line keeps its terminator, so the lines joined are the text (`flatten_splitLines`). A text
that ends with a terminator has no further line after it, and the empty text has none at all;
`Line.first` stands in for it there.
-/

namespace LoxLexer.Text

/-- The characters that end a display line. -/
def isTerminator (c : Char) : Bool :=
  c = '\n' || c = '\x0b' || c = '\x0c' || c = '\r' || c = '\x85' || c = '\u2028' || c = '\u2029'

/-- The lines of a text, each with its terminator. -/
def splitLines : List Char → List (List Char)
  | [] => []
  | '\r' :: '\n' :: cs => ['\r', '\n'] :: splitLines cs
  | c :: cs =>
      if isTerminator c then [c] :: splitLines cs
      else match splitLines cs with
        | [] => [[c]]
        | line :: rest => (c :: line) :: rest

/-- **Splitting loses nothing.** -/
theorem flatten_splitLines (cs : List Char) : (splitLines cs).flatten = cs := by
  fun_induction splitLines cs with
  | case1 => rfl
  | case2 cs ih => simp [ih]
  | case3 c cs _ hEnds ih => simp [ih]
  | case4 c cs _ hInside hRest ih =>
      rw [hRest] at ih
      simpa using ih
  | case5 c cs _ hInside line rest hRest ih =>
      rw [hRest] at ih
      simpa using ih

/-- A line of a text: its number, how many characters stand before it, and its characters with the
terminator. -/
structure Line where
  number : Nat
  offset : Nat
  text : List Char
deriving DecidableEq, Repr

namespace Line

/-- The empty first line, which is all that an empty text has. -/
def first : Line := ⟨1, 0, []⟩

/-- Numbers lines from `number` on, the first of which begins after `offset` characters. -/
def numbered (number offset : Nat) : List (List Char) → List Line
  | [] => []
  | line :: rest => ⟨number, offset, line⟩ :: numbered (number + 1) (offset + line.length) rest

/-- The lines of a text. -/
def ofText (cs : List Char) : List Line :=
  numbered 1 0 (splitLines cs)

/-- The line that holds the character with the given number; the last one if there is no such
character. -/
def holding (lines : List Line) (character : Nat) : Line :=
  lines.foldl (fun found line => if line.offset ≤ character then line else found) first

end Line

end LoxLexer.Text
