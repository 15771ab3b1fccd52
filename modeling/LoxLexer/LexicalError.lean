import LoxLexer.Span

/-!
# Lexical errors

There are two causes: a character that begins no lexeme, and a string that is still open at the
end of the source.
-/

namespace LoxLexer

/-- Why a piece of the source is no token. -/
inductive Fault where
  | unexpectedCharacter (c : Char)
  | unterminatedString
deriving DecidableEq, Repr

/-- What is told about a fault. -/
def Fault.message : Fault → String
  | unexpectedCharacter c => "Unexpected character: " ++ c.toString
  | unterminatedString => "Unterminated string."

/-- A fault and the place of the offending text. The line is the one on which the fault was
noticed: for an open string, the last line of the source. -/
structure LexicalError where
  fault : Fault
  span : Span
deriving DecidableEq, Repr

/-- The error on one line, without a line end. -/
def LexicalError.text (e : LexicalError) : List Char :=
  "[line ".toList ++ Nat.toDigits 10 e.span.line ++ "] Error: ".toList ++ e.fault.message.toList

end LoxLexer
