import InfixArithmetic.FloatText
import Mathlib

/-!
# Floats without a sign

A numeral has no sign, so no operation on the way to its float can put one there, and none gives NaN.
Main statement: `Numeral.unsigned_value`, the float of a numeral is zero, positive or positive
infinity.
-/

namespace InfixArithmetic

open Float.Model (Format UnpackedFloat)
open Float.Model.UnpackedFloat

/-! ## Fields of the bits -/

theorem toNat_unpackExponent (bits : BitVec Format.binary64.numBits) :
    (unpackExponent bits).toNat = bits.toNat / 2 ^ 52 % 2 ^ 11 := by
  simp [unpackExponent, Nat.shiftRight_eq_div_pow]

theorem toNat_unpackSign (bits : BitVec Format.binary64.numBits) :
    (unpackSign bits).toNat = bits.toNat / 2 ^ 63 % 2 := by
  simp [unpackSign, Nat.shiftRight_eq_div_pow]

theorem toNat_packComponents (sign : Sign) (exponent : BitVec 11) (mantissa : BitVec 52) :
    (packComponents Format.binary64 sign exponent mantissa).toNat =
      (sign.toBitVec.toNat * 2 ^ 11 + exponent.toNat) * 2 ^ 52 + mantissa.toNat := by
  rw [packComponents, BitVec.toNat_append, BitVec.toNat_append,
    ← Nat.shiftLeft_add_eq_or_of_lt exponent.isLt, ← Nat.shiftLeft_add_eq_or_of_lt mantissa.isLt,
    Nat.shiftLeft_eq, Nat.shiftLeft_eq]

theorem unpackSign_packComponents (sign : Sign) (exponent : BitVec 11) (mantissa : BitVec 52) :
    unpackSign (packComponents Format.binary64 sign exponent mantissa) = sign.toBitVec := by
  have hexponent := exponent.isLt
  have hmantissa := mantissa.isLt
  have hsign := sign.toBitVec.isLt
  apply BitVec.eq_of_toNat_eq
  rw [toNat_unpackSign, toNat_packComponents]
  omega

theorem ofBitVec_eq_positive_iff {bit : BitVec 1} :
    Sign.ofBitVec bit = .positive ↔ bit = 0#1 := by
  unfold Sign.ofBitVec
  split <;> simp [*]

/-! ## Unsigned numbers -/

/-- Neither NaN nor with a minus sign. -/
def Unsigned : UnpackedFloat → Prop
  | .notANumber => False
  | .infinity sign | .zero sign | .finite sign _ _ _ => sign = .positive

/-- Packed without a sign, and not as NaN. -/
theorem Unsigned.exists_pack_eq {number : UnpackedFloat} (h : Unsigned number) :
    ∃ (exponent : BitVec 11) (mantissa : BitVec 52), (exponent = -1#11 → mantissa = 0#52) ∧
      pack Format.binary64 number =
        packComponents Format.binary64 .positive exponent mantissa := by
  fun_cases pack Format.binary64 number with
  | case1 => contradiction
  | case2 sign | case4 sign =>
      cases h
      exact ⟨-1#11, 0#52, fun _ => rfl, rfl⟩
  | case3 sign =>
      cases h
      exact ⟨0#11, 0#52, fun _ => rfl, rfl⟩
  | case5 sign mantissa exponent _ _ biased hfits _ =>
      cases h
      refine ⟨_, _, ?_, rfl⟩
      intro hall
      have hfield : biased % 2 ^ 11 = 2 ^ 11 - 1 := congrArg BitVec.toNat hall
      change ¬ 2 ^ 11 ≤ biased + 1 at hfits
      omega
  | case6 sign =>
      cases h
      exact ⟨0#11, _, nofun, rfl⟩

theorem Unsigned.unpack_pack {number : UnpackedFloat} (h : Unsigned number) :
    Unsigned (unpack Format.binary64 (pack Format.binary64 number)) := by
  obtain ⟨exponent, mantissa, hinfinity, hpack⟩ := h.exists_pack_eq
  simp only [hpack, unpack, unpackMantissa_packComponents, unpackExponent_packComponents,
    unpackSign_packComponents]
  split
  · rename_i hall
    rw [if_pos (hinfinity hall)]
    rfl
  · split
    · split <;> rfl
    · rfl

theorem unsigned_roundWithAccuracy (mantissa : Nat) (exponent : Int) (accuracy : Accuracy) :
    Unsigned (roundWithAccuracy Format.binary64 .positive mantissa exponent accuracy) := by
  unfold roundWithAccuracy
  dsimp only
  split <;> rfl

theorem unsigned_ofNat (number : Nat) : Unsigned (ofNat Format.binary64 number) := by
  unfold ofNat ofInt UnpackedFloat.normalize
  split
  · rename_i hlt
    have hneg : (number : Int) < 0 := Int.compare_eq_lt.1 hlt
    omega
  · rfl
  · exact unsigned_roundWithAccuracy _ _ _

def isPositive : UnpackedFloat → Bool
  | .finite .positive _ _ _ => true
  | _ => false

theorem Unsigned.div {dividend divisor : UnpackedFloat} (h : Unsigned dividend)
    (hdivisor : isPositive divisor = true) :
    Unsigned (div Format.binary64 dividend divisor) := by
  unfold isPositive at hdivisor
  split at hdivisor
  · cases dividend with
    | notANumber => contradiction
    | infinity sign | zero sign =>
        cases h
        rfl
    | finite sign mantissa exponent =>
        cases h
        exact unsigned_roundWithAccuracy _ _ _
  · contradiction

theorem unsigned_ofScientific (coefficient : Nat) (exponent : Int) :
    Unsigned (ofScientific Format.binary64 coefficient exponent) := by
  unfold ofScientific
  split
  · rfl
  split
  · rfl
  split
  · rfl
  split
  · exact unsigned_roundWithAccuracy _ _ _
  · exact unsigned_roundWithAccuracy _ _ _

/-! ## Numerals -/

theorem isPositive_powersOfTen : ∀ exponent : Fin 23,
    isPositive Float.exactlyRepresentablePowersOfTen[exponent].toModel.unpack = true := by
  decide

theorem Decimal.unsigned_toFloat (decimal : Decimal) :
    Unsigned decimal.toFloat.toModel.unpack := by
  unfold toFloat Float.ofScientific
  split
  · rename_i hsmall
    rw [if_pos rfl]
    -- A small coefficient is divided by a power of ten that is a float itself.
    have hpower := isPositive_powersOfTen ⟨_, Nat.lt_succ_of_le hsmall.2⟩
    exact ((unsigned_ofNat _).unpack_pack.div hpower).unpack_pack
  · exact (unsigned_ofScientific _ _).unpack_pack

theorem Numeral.unsigned_value (numeral : Numeral) : Unsigned numeral.value.toModel.unpack :=
  numeral.toDecimal.unsigned_toFloat

/-! ## Their bits -/

section Bits

variable {value : Float}

theorem unpackExponent_toBits_eq_iff :
    @unpackExponent Format.binary64 value.toBits.toBitVec = -1#11 ↔
      value.toBits.toNat / 2 ^ 52 % 2 ^ 11 = 2 ^ 11 - 1 := by
  rw [← BitVec.toNat_inj, toNat_unpackExponent]
  rfl

theorem Unsigned.toNat_toBits_lt (h : Unsigned value.toModel.unpack) :
    value.toBits.toNat < 2 ^ 63 := by
  have hsign : Sign.ofBitVec (@unpackSign Format.binary64 value.toBits.toBitVec) =
      .positive := by
    unfold Float.Model.unpack unpack at h
    dsimp only at h
    split at h
    · split at h
      · exact h
      · contradiction
    · split at h
      · split at h <;> exact h
      · exact h
  have hbit := congrArg BitVec.toNat (ofBitVec_eq_positive_iff.1 hsign)
  rw [toNat_unpackSign] at hbit
  have hfield : value.toBits.toNat / 2 ^ 63 % 2 = 0 := hbit
  have hlt := value.toBits.toNat_lt
  omega

theorem isFinite_iff :
    value.isFinite = true ↔ value.toBits.toNat / 2 ^ 52 % 2 ^ 11 ≠ 2 ^ 11 - 1 := by
  rw [ne_eq, ← unpackExponent_toBits_eq_iff]
  change (unpack Format.binary64 value.toBits.toBitVec).isFinite = true ↔ _
  unfold unpack
  dsimp only
  split
  · rename_i hall
    split <;> simpa [UnpackedFloat.isFinite] using hall
  · rename_i hall
    split
    · split <;> simpa [UnpackedFloat.isFinite] using hall
    · simpa [UnpackedFloat.isFinite] using hall

end Bits

end InfixArithmetic
