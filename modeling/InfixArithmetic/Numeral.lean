import InfixArithmetic.Decimal

/-!
# Numerals

A numeral is one or more digits, or two such runs with a point between them.  There is no sign, no
exponent, and no point without digits on both sides.  `Numeral.ofChars?_eq_some_iff` says that
reading accepts exactly what writing produces.
-/

namespace InfixArithmetic

/-- The digits before and after the point; without fraction digits no point is written. -/
structure Numeral where
  whole : List Digit
  fraction : List Digit
  whole_ne_nil : whole ≠ []
  deriving DecidableEq

namespace Numeral

/-! ## Written form -/

def chars (numeral : Numeral) : List Char :=
  numeral.whole.map Digit.char ++
    match numeral.fraction with
    | [] => []
    | first :: rest => '.' :: (first :: rest).map Digit.char

def leadingDigits : List Char → List Digit × List Char
  | [] => ([], [])
  | char :: rest =>
      match Digit.ofChar? char with
      | some digit => (digit :: (leadingDigits rest).1, (leadingDigits rest).2)
      | none => ([], char :: rest)

def ofChars? (chars : List Char) : Option Numeral :=
  match leadingDigits chars with
  | ([], _) => none
  | (digit :: whole, []) => some ⟨digit :: whole, [], by simp⟩
  | (digit :: whole, '.' :: rest) =>
      match leadingDigits rest with
      | (first :: fraction, []) => some ⟨digit :: whole, first :: fraction, by simp⟩
      | _ => none
  | _ => none

theorem append_leadingDigits (text : List Char) :
    (leadingDigits text).1.map Digit.char ++ (leadingDigits text).2 = text := by
  induction text with
  | nil => rfl
  | cons char rest ih =>
      unfold leadingDigits
      split
      · rename_i digit h
        simp [Digit.ofChar?_eq_some_iff.1 h, ih]
      · rfl

theorem leadingDigits_map_char (digits : List Digit) :
    leadingDigits (digits.map Digit.char) = (digits, []) := by
  induction digits with
  | nil => rfl
  | cons digit digits ih => simp [leadingDigits, ih]

theorem leadingDigits_map_char_append (digits : List Digit) {char : Char} (rest : List Char)
    (h : Digit.ofChar? char = none) :
    leadingDigits (digits.map Digit.char ++ char :: rest) = (digits, char :: rest) := by
  induction digits with
  | nil => simp [leadingDigits, h]
  | cons digit digits ih => simp [leadingDigits, ih]

@[simp] theorem ofChars?_chars (numeral : Numeral) : ofChars? numeral.chars = some numeral := by
  obtain ⟨whole, fraction, whole_ne_nil⟩ := numeral
  cases whole with
  | nil => contradiction
  | cons digit whole =>
      cases fraction with
      | nil =>
          have h := leadingDigits_map_char (digit :: whole)
          simp only [ofChars?, chars, List.append_nil, h]
      | cons first fraction =>
          have hwhole := leadingDigits_map_char_append (digit :: whole)
            ((first :: fraction).map Digit.char) (show Digit.ofChar? '.' = none from rfl)
          have hfraction := leadingDigits_map_char (first :: fraction)
          simp only [ofChars?, chars, hwhole, hfraction]

theorem ofChars?_eq_some_iff {text : List Char} {numeral : Numeral} :
    ofChars? text = some numeral ↔ text = numeral.chars := by
  constructor
  · intro h
    have htext := append_leadingDigits text
    unfold ofChars? at h
    split at h
    · contradiction
    · rename_i digit whole hwhole
      rw [hwhole] at htext
      cases h
      simpa [chars] using htext.symm
    · rename_i digit whole rest hwhole
      rw [hwhole] at htext
      have hrest := append_leadingDigits rest
      split at h
      · rename_i first fraction hfraction
        rw [hfraction] at hrest
        cases h
        simp only [List.append_nil] at hrest
        simpa [chars, ← hrest] using htext.symm
      · contradiction
    · contradiction
  · rintro rfl
    exact ofChars?_chars numeral

/-! ## Value -/

def toDecimal (numeral : Numeral) : Decimal :=
  ⟨ofDigits (numeral.whole ++ numeral.fraction), -(numeral.fraction.length : Int)⟩

/-- The float nearest to what the numeral says, however long it is. -/
def value (numeral : Numeral) : Float :=
  numeral.toDecimal.toFloat

/-! ## The numeral of a decimal number -/

/-- Writes a decimal number without an exponent, padded with zeros where needed. -/
def ofDecimal (decimal : Decimal) : Numeral :=
  let places := (-decimal.exponent).toNat
  let unpadded := digits (decimal.coefficient * 10 ^ decimal.exponent.toNat)
  let padded := List.replicate (places + 1 - unpadded.length) 0 ++ unpadded
  { whole := padded.take (padded.length - places)
    fraction := padded.drop (padded.length - places)
    whole_ne_nil := by
      intro h
      have hpadded : places + 1 ≤ padded.length := by
        simp only [padded, List.length_append, List.length_replicate]
        omega
      rw [List.take_eq_nil_iff] at h
      rcases h with h | h
      · omega
      · simp [h] at hpadded }

theorem length_fraction_ofDecimal (decimal : Decimal) :
    (ofDecimal decimal).fraction.length = (-decimal.exponent).toNat := by
  simp only [ofDecimal, List.length_drop, List.length_append, List.length_replicate]
  omega

theorem ofDigits_ofDecimal (decimal : Decimal) :
    ofDigits ((ofDecimal decimal).whole ++ (ofDecimal decimal).fraction) =
      decimal.coefficient * 10 ^ decimal.exponent.toNat := by
  simp [ofDecimal, ofDigits_append]

/-- A decimal number and its numeral round to the same float. -/
theorem value_ofDecimal (decimal : Decimal) : (ofDecimal decimal).value = decimal.toFloat := by
  simp only [value, toDecimal, Decimal.toFloat, ofDigits_ofDecimal, length_fraction_ofDecimal]
  have hexponent : (-((-decimal.exponent).toNat : Int)).toNat = 0 := by omega
  rw [hexponent, Int.neg_neg, Int.toNat_natCast, Nat.pow_zero, Nat.mul_one]

end Numeral

end InfixArithmetic
