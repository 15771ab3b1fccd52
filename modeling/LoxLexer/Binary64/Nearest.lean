import LoxLexer.Binary64
import LoxLexer.Decimal

/-!
# The double nearest a decimal

Rounding is done on natural numbers. The decimal is a quotient of two of them in units of
`2⁻¹⁰⁷⁴`; its binary length says how many low bits a double of that size cannot hold, the quotient
is rounded to the bits that remain, a half going to the even neighbour, and the bits of the double
are the dropped length and the rounded significand side by side. A significand that rounds up to
`2⁵³` carries into the exponent, which is the next double, and anything past the largest finite
double is infinity.
-/

namespace LoxLexer.Binary64

/-- The whole number nearest `n / d`, a half going to the even one. -/
def roundHalfEven (n d : Nat) : Nat :=
  let below := n / d
  let twice := 2 * (n % d)
  if twice < d || twice = d && below % 2 = 0 then below else below + 1

/-- The bits of positive infinity. -/
def infinityBits : Nat := 2047 * Nat.pow 2 52

/-- The bits of the double nearest `n / d` units of `2⁻¹⁰⁷⁴`. -/
def nearestBits (n d : Nat) : Nat :=
  let dropped := Nat.log2 (n / d) - 52
  min (dropped * Nat.pow 2 52 + roundHalfEven n (d * Nat.pow 2 dropped)) infinityBits

/-- The double nearest a decimal, ties going to the even significand. -/
def nearest (d : Decimal) : Binary64 :=
  ⟨UInt64.ofNat (nearestBits (d.digits * one) (Nat.pow 10 d.places))⟩

end LoxLexer.Binary64
