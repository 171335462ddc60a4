import InfixArithmetic.Decimal.Shortest
import InfixArithmetic.Numeral

/-!
# Floats as text

A finite float is written as the shortest numeral that reads back, after a minus sign where its sign
bit is set; there is never an exponent, and a whole number has no point.
-/

namespace InfixArithmetic

def floatText (value : Float) : String :=
  if value.isNaN then "NaN"
  else
    let sign := if value.toBits >>> 63 = 0 then "" else "-"
    if value.isInf then sign ++ "inf"
    else
      sign ++ String.ofList
        (Numeral.ofDecimal (Decimal.shortest (Binary.magnitudeBits value))).chars

end InfixArithmetic
