import LoxLexer.Scan

/-!
# Comparing two scans

Two scans are equal if their tokens and their errors are, one by one. Where they are not, the
comparison tells in which respects the tokens at each place agree.
-/

namespace LoxLexer

/-- In which respects two tokens agree. -/
structure Token.Agreement where
  token : Bool
  kind : Bool
  literal : Bool
  span : Bool
deriving DecidableEq, Repr

def Token.agreement (a b : Token) : Token.Agreement :=
  ⟨a.equals b, a.kind = b.kind, a.literalEquals b, a.span = b.span⟩

namespace Scan

/-- Whether the tokens are as many and equal at each place. -/
def tokensEqual (a b : Scan) : Bool :=
  a.tokens.length = b.tokens.length && (a.tokens.zip b.tokens).all fun pair => pair.1.equals pair.2

def errorsEqual (a b : Scan) : Bool :=
  a.errors = b.errors

def equals (a b : Scan) : Bool :=
  a.tokensEqual b && a.errorsEqual b

/-- The agreement of the tokens at each place that both scans have. -/
def agreements (a b : Scan) : List Token.Agreement :=
  List.zipWith Token.agreement a.tokens b.tokens

end Scan

end LoxLexer
