import InfixArithmetic.Digit

/-!
# Decimal numbers

A nonnegative decimal number `coefficient * 10 ^ exponent`, and the float it rounds to.
-/

namespace InfixArithmetic

structure Decimal where
  coefficient : Nat
  exponent : Int
  deriving DecidableEq, Repr

namespace Decimal

/-- The nearest binary64 float, ties to even; too large a number gives infinity. -/
def toFloat (decimal : Decimal) : Float :=
  Float.ofScientific (decimal.coefficient * 10 ^ decimal.exponent.toNat) true
    (-decimal.exponent).toNat

end Decimal

end InfixArithmetic
