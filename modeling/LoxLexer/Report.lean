import LoxLexer.Report.Delivery
import LoxLexer.Report.Excerpt

/-!
# Reports

A report tells the errors of a source one after another, each either on a line of its own or as an
annotated excerpt. The errors need not come from a scan of the source, and their spans may be
wrong for it; there is an answer all the same.

A report can be delivered to a receiver that takes only so many bytes. It takes the errors' texts
in order, the last one it has room for in part, and nothing after that.
-/

namespace LoxLexer

/-- How errors are told: on one line each, or as annotated excerpts. -/
inductive Style where
  | plain | pretty
deriving DecidableEq, Repr

/-- What a report is about, and how it is written. -/
structure Report where
  path : String
  source : String
  style : Style
  color : Bool
deriving DecidableEq, Repr

namespace Report

/-- The text for one error. Only excerpts are coloured. -/
def error (r : Report) (e : LexicalError) : List Char :=
  match r.style with
  | .plain => e.text ++ ['\n']
  | .pretty => Piece.renderAll r.color (Excerpt.ofError r.path r.source.toList e).drawing

/-- The text for several errors: the texts for each, in order. -/
def text (r : Report) (errors : List LexicalError) : List Char :=
  errors.flatMap r.error

end Report

/-- Delivers a report to a receiver that takes `room` bytes. -/
def Report.deliver (r : Report) (room : Nat) (errors : List LexicalError) : Delivery :=
  Delivery.ofTexts room (errors.map fun e => Text.utf8 (r.error e))

end LoxLexer
