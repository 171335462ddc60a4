import InfixArithmetic.Proofs.Float.Unsigned

/-!
# Printed floats read back

On the exact grid a float is a quotient by a power of ten, and reading that quotient rounds nothing
away: the division stops at an exponent not above the float's own, so it leaves no remainder, and the
zeros it leaves at the end are what rounding drops.  The search for the shortest decimal number thus
ends with one that reads back.  Main statement: `Numeral.value_ofFloat`, the numeral of a finite
float without a sign has that float as its value.
-/

namespace InfixArithmetic

open Float.Model (Format totalExponent)
open Float.Model.UnpackedFloat

/-! ## Canonical numbers -/

/-- The mantissa has 53 bits, or fewer at the lowest exponent. -/
structure Binary.Canonical (value : Binary) : Prop where
  mantissa_pos : 0 < value.mantissa
  mantissa_lt : value.mantissa < 2 ^ 53
  le_exponent : -1074 ≤ value.exponent
  exponent_le : value.exponent ≤ 971
  normal : 2 ^ 52 ≤ value.mantissa ∨ value.exponent = -1074

theorem log2_mul_two_pow {number : Nat} (hpos : 0 < number) (shift : Nat) :
    (number * 2 ^ shift).log2 = number.log2 + shift := by
  have htwo : 0 < 2 ^ shift := Nat.two_pow_pos shift
  refine (Nat.log2_eq_iff (Nat.mul_pos hpos htwo).ne').2 ⟨?_, ?_⟩
  · rw [Nat.pow_add]
    exact Nat.mul_le_mul_right _ (Nat.log2_self_le hpos.ne')
  · rw [Nat.add_right_comm, Nat.pow_add]
    exact Nat.mul_lt_mul_of_pos_right Nat.lt_log2_self htwo

theorem shiftRight_exact (mantissa shift : Nat) :
    (⟨mantissa * 2 ^ shift, false, false⟩ : ExtendedMantissa) >>> shift =
      ⟨mantissa, false, false⟩ := by
  change Nat.repeat ExtendedMantissa.shiftRightOne shift _ = _
  induction shift generalizing mantissa with
  | zero => rw [Nat.pow_zero, Nat.mul_one, Nat.repeat]
  | succ shift ih =>
      have hsplit : mantissa * 2 ^ (shift + 1) = 2 * mantissa * 2 ^ shift := by ring
      rw [hsplit, Nat.repeat, ih (2 * mantissa)]
      simp [ExtendedMantissa.shiftRightOne]

namespace Binary.Canonical

variable {value : Binary}

theorem log2_lt (h : value.Canonical) : value.mantissa.log2 < 53 :=
  (Nat.log2_lt h.mantissa_pos.ne').2 h.mantissa_lt

theorem le_log2_iff (h : value.Canonical) : 52 ≤ value.mantissa.log2 ↔ 2 ^ 52 ≤ value.mantissa :=
  Nat.le_log2 h.mantissa_pos.ne'

theorem targetExponent_eq (h : value.Canonical) :
    Format.binary64.targetExponent (totalExponent value.mantissa value.exponent) =
      value.exponent := by
  have hlt := h.log2_lt
  have hle := h.le_exponent
  simp only [Format.targetExponent, totalExponent, Format.mantissaBits, Format.minExponent]
  rcases h.normal with hnormal | hsubnormal
  · have hlog := h.le_log2_iff.2 hnormal
    omega
  · omega

theorem shiftToTargetExponent_eq (h : value.Canonical) (shift : Nat) :
    shiftToTargetExponent Format.binary64 (value.mantissa * 2 ^ shift) (value.exponent - shift)
      .exact = (⟨value.mantissa, false, false⟩, value.exponent) := by
  have htotal : totalExponent (value.mantissa * 2 ^ shift) (value.exponent - shift) =
      totalExponent value.mantissa value.exponent := by
    simp only [totalExponent, log2_mul_two_pow h.mantissa_pos]
    omega
  have hshift : (value.exponent - (value.exponent - shift)).toNat = shift := by omega
  simp only [shiftToTargetExponent, htotal, h.targetExponent_eq, shiftToExponent, hshift,
    ExtendedMantissa.ofMantissaAndAccuracy, shiftRight_exact, Int.sub_add_cancel]

/-- Rounding drops the zeros behind a canonical mantissa, and nothing else. -/
theorem roundWithAccuracy_eq (h : value.Canonical) (shift : Nat) :
    roundWithAccuracy Format.binary64 .positive (value.mantissa * 2 ^ shift)
      (value.exponent - shift) .exact =
        .finite .positive value.mantissa value.exponent h.mantissa_pos := by
  have hrounded : (⟨value.mantissa, false, false⟩ : ExtendedMantissa).roundedMantissa =
      value.mantissa := rfl
  have hagain := h.shiftToTargetExponent_eq 0
  rw [Nat.pow_zero, Nat.mul_one, Int.natCast_zero, Int.sub_zero] at hagain
  simp only [roundWithAccuracy, h.shiftToTargetExponent_eq shift, hrounded, hagain]
  exact dif_neg h.mantissa_pos.ne'

end Binary.Canonical

/-! ## Exact quotients -/

/-- The number is a quotient of natural numbers. -/
def Binary.IsQuotient (value : Binary) (dividend divisor : Nat) : Prop :=
  dividend * 2 ^ (-value.exponent).toNat = value.mantissa * 2 ^ value.exponent.toNat * divisor

namespace Binary.IsQuotient

variable {value : Binary} {dividend divisor : Nat}

theorem dividend_pos (h : value.IsQuotient dividend divisor) (hvalue : value.Canonical)
    (hdivisor : 0 < divisor) : 0 < dividend := by
  rcases Nat.eq_zero_or_pos dividend with rfl | hpos
  · have hmantissa := Nat.mul_pos hvalue.mantissa_pos (Nat.two_pow_pos value.exponent.toNat)
    have hproduct := Nat.mul_pos hmantissa hdivisor
    rw [← h, Nat.zero_mul] at hproduct
    contradiction
  · exact hpos

theorem log2_sub_log2_le (h : value.IsQuotient dividend divisor) (hdividend : 0 < dividend) :
    (dividend.log2 : Int) - divisor.log2 ≤ totalExponent value.mantissa value.exponent := by
  have hlt :=
    calc
      2 ^ (dividend.log2 + (-value.exponent).toNat)
        = 2 ^ dividend.log2 * 2 ^ (-value.exponent).toNat := Nat.pow_add _ _ _
      _ ≤ dividend * 2 ^ (-value.exponent).toNat :=
        Nat.mul_le_mul_right _ (Nat.log2_self_le hdividend.ne')
      _ = value.mantissa * 2 ^ value.exponent.toNat * divisor := h
      _ < 2 ^ (value.mantissa.log2 + 1) * 2 ^ value.exponent.toNat * 2 ^ (divisor.log2 + 1) :=
        Nat.mul_lt_mul''
          (Nat.mul_lt_mul_of_pos_right Nat.lt_log2_self (Nat.two_pow_pos _)) Nat.lt_log2_self
      _ = 2 ^ (value.mantissa.log2 + 1 + value.exponent.toNat + (divisor.log2 + 1)) := by
        rw [← Nat.pow_add, ← Nat.pow_add]
  have hexponents := (Nat.pow_lt_pow_iff_right (by decide)).1 hlt
  rw [totalExponent]
  omega

/-- Dividing leaves no remainder, since enough bits are taken to reach the float's last one. -/
theorem exists_divCore_eq (h : value.IsQuotient dividend divisor) (hvalue : value.Canonical)
    (hdivisor : 0 < divisor) :
    ∃ shift : Nat, divCore Format.binary64 dividend 0 divisor 0 =
      (value.mantissa * 2 ^ shift, value.exponent - shift, .exact) := by
  have hlog := h.log2_sub_log2_le (h.dividend_pos hvalue hdivisor)
  have hle : min 0 (Format.binary64.targetExponent
      (totalExponent dividend 0 - totalExponent divisor 0)) ≤ value.exponent := by
    have hvalueTarget := hvalue.targetExponent_eq
    simp only [Format.targetExponent, totalExponent] at hvalueTarget hlog ⊢
    omega
  generalize htarget : min 0 (Format.binary64.targetExponent
      (totalExponent dividend 0 - totalExponent divisor 0)) = target at hle
  obtain ⟨shift, hshift⟩ := Int.le.dest hle
  have hnonpos : target ≤ 0 := htarget ▸ Int.min_le_left _ _
  have hscaled : dividend * 2 ^ (-target).toNat = value.mantissa * 2 ^ shift * divisor := by
    have hpow : 2 ^ (-target).toNat * 2 ^ value.exponent.toNat =
        2 ^ (-value.exponent).toNat * 2 ^ shift := by
      rw [← Nat.pow_add, ← Nat.pow_add]
      congr 1
      omega
    apply Nat.eq_of_mul_eq_mul_right (Nat.two_pow_pos value.exponent.toNat)
    calc
      dividend * 2 ^ (-target).toNat * 2 ^ value.exponent.toNat
        = dividend * 2 ^ (-value.exponent).toNat * 2 ^ shift := by
          rw [Nat.mul_assoc, hpow, Nat.mul_assoc]
      _ = value.mantissa * 2 ^ shift * divisor * 2 ^ value.exponent.toNat := by
        rw [h]
        ring
  refine ⟨shift, ?_⟩
  simp only [divCore, Int.sub_self, htarget, Nat.shiftLeft_eq]
  simp only [Int.zero_sub, hscaled, Nat.mul_div_cancel _ hdivisor, Nat.mul_mod_left,
    accuracyOfFraction, ↓reduceIte]
  rw [← hshift, Int.add_sub_cancel]

theorem ofScientific_eq {coefficient places : Nat}
    (h : value.IsQuotient coefficient (10 ^ places)) (hvalue : value.Canonical)
    (hplaces : 0 < places) (hle : places ≤ 1074) :
    ofScientific Format.binary64 coefficient (Int.negOfNat places) =
      .finite .positive value.mantissa value.exponent hvalue.mantissa_pos := by
  have hpower : 0 < 10 ^ places := Nat.pow_pos (by decide)
  obtain ⟨shift, hdiv⟩ := h.exists_divCore_eq hvalue hpower
  have hneg : Int.negOfNat places = -(places : Int) := rfl
  have hnat : (- -(places : Int)).toNat = places := by omega
  rw [ofScientific, dif_neg (h.dividend_pos hvalue hpower).ne', hneg, if_neg, if_neg, if_neg]
  · simp only [hnat, div, hdiv]
    exact hvalue.roundWithAccuracy_eq shift
  · omega
  · simp only
    omega
  · simp only
    omega

end Binary.IsQuotient

/-! ## Bits of canonical numbers -/

theorem Binary.ofMagnitudeBits_eq (bits : UInt64) :
    ofMagnitudeBits bits =
      if bits.toNat / 2 ^ 52 = 0 then ⟨bits.toNat % 2 ^ 52, -1074⟩
      else ⟨bits.toNat % 2 ^ 52 + 2 ^ 52, (bits.toNat / 2 ^ 52 : Nat) - 1075⟩ := by
  have hfield : (bits >>> 52).toNat = bits.toNat / 2 ^ 52 := by
    rw [UInt64.toNat_shiftRight, Nat.shiftRight_eq_div_pow]
    rfl
  have hfraction : (bits &&& 0xfffffffffffff).toNat = bits.toNat % 2 ^ 52 := by
    rw [UInt64.toNat_and]
    exact Nat.and_two_pow_sub_one_eq_mod bits.toNat 52
  simp only [ofMagnitudeBits, hfield, hfraction]
  rfl

theorem Binary.canonical_ofMagnitudeBits {bits : UInt64} (hpos : 0 < bits.toNat)
    (hlt : bits.toNat < 2047 * 2 ^ 52) : (ofMagnitudeBits bits).Canonical := by
  rw [ofMagnitudeBits_eq]
  split
  · refine ⟨?_, ?_, ?_, ?_, .inr rfl⟩ <;> simp only <;> omega
  · refine ⟨?_, ?_, ?_, ?_, .inl ?_⟩ <;> simp only <;> omega

def Binary.toBits (value : Binary) : Nat :=
  if 2 ^ 52 ≤ value.mantissa then
    (value.exponent + 1075).toNat * 2 ^ 52 + value.mantissa % 2 ^ 52
  else value.mantissa

theorem Binary.toBits_ofMagnitudeBits (bits : UInt64) :
    (ofMagnitudeBits bits).toBits = bits.toNat := by
  rw [ofMagnitudeBits_eq, toBits]
  split
  all_goals
    dsimp only
    split <;> omega

theorem Binary.Canonical.toNat_pack {value : Binary} (h : value.Canonical) :
    (pack Format.binary64
      (.finite .positive value.mantissa value.exponent h.mantissa_pos)).toNat = value.toBits := by
  have hle := h.le_exponent
  have hge := h.exponent_le
  have hlt := h.mantissa_lt
  have hfits : ¬ 2 ^ 11 ≤ (value.exponent + 1023 + 52).toNat + 1 := by omega
  have hnormal : value.mantissa.log2 + 1 = 53 ↔ 2 ^ 52 ≤ value.mantissa := by
    have hlog := h.log2_lt
    rw [← h.le_log2_iff]
    omega
  have hsign : Sign.positive.toBitVec.toNat = 0 := rfl
  have hpack : pack Format.binary64
      (.finite .positive value.mantissa value.exponent h.mantissa_pos) =
        if value.mantissa.log2 + 1 = 53 then
          packComponents Format.binary64 .positive
            (BitVec.ofNat 11 (value.exponent + 1023 + 52).toNat) (BitVec.ofNat 52 value.mantissa)
        else packComponents Format.binary64 .positive 0#11 (BitVec.ofNat 52 value.mantissa) :=
    if_neg hfits
  rw [hpack, toBits, if_congr hnormal rfl rfl]
  split
  all_goals
    rw [toNat_packComponents, BitVec.toNat_ofNat, BitVec.toNat_ofNat, hsign]
    omega

/-! ## The shortest decimal number -/

namespace Decimal

/-- The value itself on its exact grid. -/
def exactly (value : Binary) : Decimal :=
  let (numerator, denominator) := value.inUnits value.exactScale
  ⟨numerator / denominator, value.exactScale⟩

theorem isQuotient_exactly {value : Binary} {places : Nat}
    (hplaces : value.exactScale = -(places : Int)) :
    value.IsQuotient (exactly value).coefficient (10 ^ places) := by
  have hscale : value.exactScale.toNat = 0 := by omega
  have hle : (-value.exponent).toNat ≤ places := by
    simp only [Binary.exactScale] at hplaces
    omega
  have hdvd : 2 ^ (-value.exponent).toNat ∣ 10 ^ places :=
    calc
      2 ^ (-value.exponent).toNat ∣ 2 ^ places := Nat.pow_dvd_pow 2 hle
      _ ∣ 10 ^ places := pow_dvd_pow_of_dvd (by decide) places
  simp only [exactly, Binary.inUnits, hscale, Nat.pow_zero, Nat.mul_one, Binary.IsQuotient]
  rw [hplaces, Int.neg_neg, Int.toNat_natCast]
  exact Nat.div_mul_cancel (Nat.dvd_mul_left_of_dvd hdvd _)

theorem toNat_toBits_pack (number : Float.Model.UnpackedFloat) :
    (Float.ofModel (Float.Model.pack number)).toBits.toNat =
      (pack Format.binary64 number).toNat := rfl

theorem readsBack_exactly {bits : UInt64} (hpos : 0 < bits.toNat)
    (hlt : bits.toNat < 2047 * 2 ^ 52) :
    ReadsBack bits (exactly (Binary.ofMagnitudeBits bits)) := by
  have hvalue := Binary.canonical_ofMagnitudeBits hpos hlt
  have hbits := Binary.toBits_ofMagnitudeBits bits
  generalize Binary.ofMagnitudeBits bits = value at hvalue hbits
  have hle := hvalue.le_exponent
  obtain ⟨places, hplaces⟩ : ∃ places : Nat, value.exactScale = -(places : Int) :=
    ⟨(-value.exactScale).toNat, by simp only [Binary.exactScale]; omega⟩
  have hrange : 22 < places ∧ places ≤ 1074 := by
    simp only [Binary.exactScale] at hplaces
    omega
  have hscientific := (isQuotient_exactly hplaces).ofScientific_eq hvalue (by omega) hrange.2
  have hexponent : (exactly value).exponent = -(places : Int) := hplaces
  have hzero : (-(places : Int)).toNat = 0 := by omega
  have htoFloat : (exactly value).toFloat = Float.ofModel (Float.Model.ofScientific
      (exactly value).coefficient (Int.negOfNat places)) := by
    rw [toFloat, hexponent, hzero, Int.neg_neg, Int.toNat_natCast, Nat.pow_zero, Nat.mul_one,
      Float.ofScientific, dif_neg (by omega), if_pos rfl]
  apply UInt64.toNat_inj.1
  calc
    (exactly value).toFloat.toBits.toNat
      = (pack Format.binary64 (ofScientific Format.binary64 (exactly value).coefficient
          (Int.negOfNat places))).toNat := by
        rw [htoFloat]
        exact toNat_toBits_pack _
    _ = bits.toNat := by rw [hscientific, hvalue.toNat_pack, hbits]

theorem readsBack_shortestWithin {bits : UInt64} {value : Binary}
    (h : ReadsBack bits (exactly value)) (steps : Nat) :
    ReadsBack bits (shortestWithin bits value steps) := by
  induction steps with
  | zero => exact h
  | succ steps ih =>
      rw [shortestWithin]
      split
      · rename_i decimal hfind
        simpa using List.find?_some hfind
      · exact ih

theorem readsBack_shortest {bits : UInt64} (hlt : bits.toNat < 2047 * 2 ^ 52) :
    ReadsBack bits (shortest bits) := by
  rcases Nat.eq_zero_or_pos bits.toNat with hzero | hpos
  · obtain rfl : bits = 0 := UInt64.toNat_inj.1 hzero
    decide
  · have hvalue := Binary.canonical_ofMagnitudeBits hpos hlt
    rw [shortest, if_neg hvalue.mantissa_pos.ne']
    exact readsBack_shortestWithin (readsBack_exactly hpos hlt) _

end Decimal

/-! ## The numeral of a float -/

/-- The numeral that a float is written with, its sign left out. -/
def Numeral.ofFloat (value : Float) : Numeral :=
  ofDecimal (Decimal.shortest (Binary.magnitudeBits value))

theorem float_eq_of_toBits_eq {first second : Float} (h : first.toBits = second.toBits) :
    first = second := by
  obtain ⟨⟨_, _⟩⟩ := first
  obtain ⟨⟨_, _⟩⟩ := second
  cases h
  rfl

theorem magnitudeBits_eq {value : Float} (h : value.toBits.toNat < 2 ^ 63) :
    Binary.magnitudeBits value = value.toBits := by
  apply UInt64.toNat_inj.1
  rw [Binary.magnitudeBits, UInt64.toNat_and]
  exact (Nat.and_two_pow_sub_one_eq_mod value.toBits.toNat 63).trans (Nat.mod_eq_of_lt h)

theorem Numeral.value_ofFloat {value : Float} (h : Unsigned value.toModel.unpack)
    (hfinite : value.isFinite = true) : (ofFloat value).value = value := by
  have hlt := h.toNat_toBits_lt
  have hfield := isFinite_iff.1 hfinite
  have hreads : Decimal.ReadsBack value.toBits (Decimal.shortest value.toBits) :=
    Decimal.readsBack_shortest (by omega)
  rw [ofFloat, value_ofDecimal, magnitudeBits_eq hlt]
  exact float_eq_of_toBits_eq hreads

/-- Without a sign only an infinity is not written as a numeral. -/
theorem floatText_eq {value : Float} (h : Unsigned value.toModel.unpack) :
    value.isInf = !value.isFinite ∧
      floatText value =
        if value.isFinite then String.ofList (Numeral.ofFloat value).chars else "inf" := by
  have hsign : value.toBits >>> 63 = 0 := by
    apply UInt64.toNat_inj.1
    rw [UInt64.toNat_shiftRight, Nat.shiftRight_eq_div_pow]
    exact Nat.div_eq_of_lt h.toNat_toBits_lt
  have hnumber : value.isNaN = false ∧ value.isInf = !value.isFinite := by
    change value.toModel.unpack.isNaN = false ∧
      value.toModel.unpack.isInf = !value.toModel.unpack.isFinite
    generalize value.toModel.unpack = number at h
    cases number with
    | notANumber => contradiction
    | infinity sign | zero sign | finite sign mantissa exponent => exact ⟨rfl, rfl⟩
  refine ⟨hnumber.2, ?_⟩
  simp only [floatText, hnumber, hsign, Bool.false_eq_true, ↓reduceIte, String.empty_append]
  cases value.isFinite <;> simp [Numeral.ofFloat]

end InfixArithmetic
