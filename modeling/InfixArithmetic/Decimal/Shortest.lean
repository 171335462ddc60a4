import InfixArithmetic.Decimal

/-!
# The shortest decimal that reads back

Without its sign a finite float is `mantissa * 2 ^ exponent`.  Among the decimal numbers that round
to it, the ones of the coarsest power of ten have the fewest digits, and of these the nearest to the
float is the one to write; of two equally near ones it is the larger.  The search walks down from a
power of ten above the float, and on each grid only the two neighbours of the float can be nearest.
-/

namespace InfixArithmetic

structure Binary where
  mantissa : Nat
  exponent : Int
  deriving DecidableEq, Repr

namespace Binary

/-! ## The exact value of a float -/

def magnitudeBits (value : Float) : UInt64 :=
  value.toBits &&& 0x7fffffffffffffff

/-- The magnitude of a finite float; subnormal numbers share the exponent of the smallest normal
ones and lack the implicit leading bit. -/
def ofMagnitudeBits (bits : UInt64) : Binary :=
  let field := (bits >>> 52).toNat
  let fraction := (bits &&& 0xfffffffffffff).toNat
  if field = 0 then ⟨fraction, -1074⟩ else ⟨fraction + 0x10000000000000, field - 1075⟩

/-! ## Decimal grids -/

/-- Numerator and denominator of the value measured in units of `10 ^ scale`. -/
def inUnits (value : Binary) (scale : Int) : Nat × Nat :=
  (value.mantissa * 2 ^ value.exponent.toNat * 10 ^ (-scale).toNat,
    2 ^ (-value.exponent).toNat * 10 ^ scale.toNat)

/-- The neighbours of the value on the grid of multiples of `10 ^ scale`: the nearer one first, and
the upper one first when both are equally near. -/
def neighbours (value : Binary) (scale : Int) : List Decimal :=
  let (numerator, denominator) := value.inUnits scale
  let lower : Decimal := ⟨numerator / denominator, scale⟩
  let upper : Decimal := ⟨numerator / denominator + 1, scale⟩
  if 2 * (numerator % denominator) < denominator then [lower, upper] else [upper, lower]

/-- A power of ten above the value: `3 / 10` is just below the decimal logarithm of two. -/
def coarsestScale (value : Binary) : Int :=
  (value.mantissa.log2 + 1 + value.exponent) * 3 / 10 + 2

/-- The value is a point of this grid, and numbers with that many places are read by one division of
integers. -/
def exactScale (value : Binary) : Int :=
  min value.exponent (-23)

end Binary

namespace Decimal

def ReadsBack (bits : UInt64) (decimal : Decimal) : Prop :=
  decimal.toFloat.toBits = bits

instance (bits : UInt64) : DecidablePred (ReadsBack bits) :=
  fun decimal => inferInstanceAs (Decidable (decimal.toFloat.toBits = bits))

/-- The first neighbour that reads back on the grids from `steps` powers of ten above the exact
one downward; on the exact grid it is the value itself. -/
def shortestWithin (bits : UInt64) (value : Binary) : Nat → Decimal
  | 0 =>
      let (numerator, denominator) := value.inUnits value.exactScale
      ⟨numerator / denominator, value.exactScale⟩
  | steps + 1 =>
      match (value.neighbours (value.exactScale + (steps + 1))).find? (ReadsBack bits ·) with
      | some decimal => decimal
      | none => shortestWithin bits value steps

/-- The decimal number to write for the magnitude of a finite float. -/
def shortest (bits : UInt64) : Decimal :=
  let value := Binary.ofMagnitudeBits bits
  if value.mantissa = 0 then ⟨0, 0⟩
  else shortestWithin bits value (value.coarsestScale - value.exactScale).toNat

end Decimal

end InfixArithmetic
