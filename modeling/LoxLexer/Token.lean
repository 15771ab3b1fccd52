import LoxLexer.Literal
import LoxLexer.Span

/-!
# Tokens

A token is a classified piece of the source. It is listed as its kind, its lexeme and its value,
separated by single spaces.
-/

namespace LoxLexer

structure Token where
  kind : Kind
  lexeme : String
  literal : Option Literal
  span : Span
deriving DecidableEq, Repr

namespace Token

/-- The token that ends every listing, at the end of the source. -/
def endOfFile (p : Position) : Token :=
  ⟨.endOfFile, "", none, ⟨p.offset, p.offset, p.line⟩⟩

/-- Kind, lexeme and value; `null` stands for the value of a token that has none. -/
def text (t : Token) : List Char :=
  t.kind.name.toList ++ ' ' :: t.lexeme.toList ++ ' ' :: t.literal.elim "null".toList Literal.text

/-- Whether two tokens carry equal values, or both none. -/
def literalEquals (a b : Token) : Bool :=
  match a.literal, b.literal with
  | some x, some y => x.equals y
  | none, none => true
  | _, _ => false

/-- Equality of tokens, their values compared as values. -/
def equals (a b : Token) : Bool :=
  a.kind = b.kind && a.lexeme = b.lexeme && a.literalEquals b && a.span = b.span

end Token

end LoxLexer
