/-!
# Doubles

A double is its 64 bits: a sign, eleven bits of exponent and fifty-two of fraction. Every finite
double is a whole number of the smallest positive one, so its absolute value is kept exactly as a
natural number, `magnitude`, of units of `2⁻¹⁰⁷⁴`; no rational or real number is needed to speak
of its value. `equals` is equality as numbers, which only NaNs fail for themselves
(`equals_self`).

Powers in definitions are `Nat.pow`: what `^` stands for depends on what is imported.
-/

namespace LoxLexer

/-- A double, by its bits. -/
structure Binary64 where
  bits : UInt64
deriving DecidableEq, Repr

namespace Binary64

/-- The scale of `magnitude`: a magnitude of this many units is the number one. -/
@[irreducible] def one : Nat := Nat.pow 2 1074

/-- Whether the sign bit is set, on zeros and NaNs too. -/
def isNegative (x : Binary64) : Bool :=
  x.bits.toNat / Nat.pow 2 63 = 1

/-- The biased exponent. -/
def exponent (x : Binary64) : Nat :=
  x.bits.toNat / Nat.pow 2 52 % Nat.pow 2 11

/-- The bits of the significand after its leading one. -/
def fraction (x : Binary64) : Nat :=
  x.bits.toNat % Nat.pow 2 52

/-- The largest exponent is kept for infinities and NaNs. -/
def isFinite (x : Binary64) : Bool :=
  x.exponent < 2047

/-- An infinity has no fraction; any other bits with its exponent are a NaN. -/
def isNaN (x : Binary64) : Bool :=
  x.exponent = 2047 && x.fraction ≠ 0

/-- The absolute value of a finite double, in units of `2⁻¹⁰⁷⁴`. -/
def magnitude (x : Binary64) : Nat :=
  if x.exponent = 0 then x.fraction
  else (Nat.pow 2 52 + x.fraction) * Nat.pow 2 (x.exponent - 1)

/-- Whether a finite double is a whole number. -/
def isWhole (x : Binary64) : Bool :=
  x.magnitude % one = 0

/-- The double without its sign. -/
def abs (x : Binary64) : Binary64 :=
  ⟨UInt64.ofNat (x.bits.toNat % Nat.pow 2 63)⟩

/-- Equality as numbers: the two zeros are equal, and a NaN is equal to nothing. -/
def equals (x y : Binary64) : Bool :=
  !x.isNaN && !y.isNaN && (x = y || x.abs.bits = 0 && y.abs.bits = 0)

theorem equals_self (x : Binary64) : x.equals x = !x.isNaN := by
  simp [equals]

end Binary64

end LoxLexer
