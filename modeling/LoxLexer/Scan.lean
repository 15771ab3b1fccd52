import LoxLexer.LexicalError
import LoxLexer.Segment
import LoxLexer.Token

/-!
# Scanning

A scan is what a source amounts to: its tokens, the last of which marks the end, and its lexical
errors, both in the order of the source. It comes from the segments of the source once each is
given its position, which is where the segments before it lead from the beginning.
-/

namespace LoxLexer

/-- A segment and the position at which it begins. -/
structure Placed where
  segment : Segment
  start : Position
deriving DecidableEq, Repr

namespace Placed

/-- Places segments one after another, the first at `p`. -/
def ofSegments (p : Position) : List Segment → List Placed
  | [] => []
  | s :: rest => ⟨s, p⟩ :: ofSegments (p.advance s.text) rest

/-- The position behind the segment. -/
def stop (s : Placed) : Position :=
  s.start.advance s.segment.text

/-- The token of a lexeme. Its line is the one on which it begins. -/
def token? (s : Placed) : Option Token :=
  match s.segment with
  | .lexeme kind text =>
      some ⟨kind, String.ofList text, Literal.ofLexeme? kind text,
        ⟨s.start.offset, s.stop.offset, s.start.line⟩⟩
  | _ => none

/-- The fault of a segment that is no token. Its line is the one on which the segment ends. -/
def error? (s : Placed) : Option LexicalError :=
  let span : Span := ⟨s.start.offset, s.stop.offset, s.stop.line⟩
  match s.segment with
  | .unexpected c => some ⟨.unexpectedCharacter c, span⟩
  | .unterminated _ => some ⟨.unterminatedString, span⟩
  | _ => none

end Placed

structure Scan where
  tokens : List Token
  errors : List LexicalError
deriving DecidableEq, Repr

/-- Whether the source has a lexical error. -/
def Scan.hasError (s : Scan) : Bool :=
  !s.errors.isEmpty

/-- The tokens and lexical errors of a source. -/
def scan (source : String) : Scan :=
  let text := source.toList
  let placed := Placed.ofSegments .origin (Segment.segments text)
  ⟨placed.filterMap Placed.token? ++ [Token.endOfFile (Position.origin.advance text)],
    placed.filterMap Placed.error?⟩

end LoxLexer
