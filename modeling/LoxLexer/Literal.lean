import LoxLexer.Binary64.Shortest
import LoxLexer.Kind

/-!
# Literals

The value that a string or number token carries. A string's value is the text between its quotes,
as it stands; a number's is the double nearest its numeral. Literals are compared as values, so
two numbers are equal if their doubles are equal as numbers.
-/

namespace LoxLexer

inductive Literal where
  | number (value : Binary64)
  | string (body : String)
deriving DecidableEq, Repr

namespace Literal

/-- The value of a lexeme of the given kind; most kinds have none. -/
def ofLexeme? (kind : Kind) (lexeme : List Char) : Option Literal :=
  match kind with
  | .string => some (.string (String.ofList lexeme.tail.dropLast))
  | .number => (Decimal.ofNumeral? lexeme).map fun d => .number (.nearest d)
  | _ => none

/-- A number positionally, a string as it stands. -/
def text : Literal → List Char
  | number value => value.text
  | string body => body.toList

/-- The body of a string literal. -/
def body? : Literal → Option String
  | number _ => none
  | string body => some body

/-- Equality of values: numbers as numbers, strings character by character. -/
def equals : Literal → Literal → Bool
  | number x, number y => x.equals y
  | string a, string b => a = b
  | _, _ => false

end Literal

end LoxLexer
