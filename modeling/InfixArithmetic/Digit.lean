/-!
# Decimal digits

Digits as characters, and natural numbers as digit lists with the most significant digit first.
`ofDigits_digits` says that the digits of a number spell that number.
-/

namespace InfixArithmetic

abbrev Digit := Fin 10

-- Powers and digit literals mean the same here whatever other instances are in scope.
scoped instance (priority := 2000) natPow : Pow Nat Nat := instPowNat

scoped instance ten_neZero : @NeZero Nat Zero.ofOfNat0 10 := Nat.instNeZeroSucc

namespace Digit

def char (digit : Digit) : Char :=
  Char.ofNat (48 + digit.val)

def ofChar? (char : Char) : Option Digit :=
  if h : 48 ≤ char.toNat ∧ char.toNat < 58 then some ⟨char.toNat - 48, by omega⟩ else none

def isDigit (char : Char) : Bool :=
  (ofChar? char).isSome

theorem toNat_char (digit : Digit) : (char digit).toNat = 48 + digit.val := by
  revert digit
  decide

@[simp] theorem ofChar?_char (digit : Digit) : ofChar? (char digit) = some digit := by
  revert digit
  decide

theorem ofChar?_eq_some_iff {c : Char} {digit : Digit} :
    ofChar? c = some digit ↔ c = char digit := by
  constructor
  · intro h
    simp only [ofChar?, Option.dite_none_right_eq_some, Option.some.injEq] at h
    obtain ⟨hrange, rfl⟩ := h
    apply Char.toNat_inj.1
    rw [toNat_char]
    simp only
    omega
  · rintro rfl
    exact ofChar?_char digit

@[simp] theorem isDigit_char (digit : Digit) : isDigit (char digit) = true := by
  simp [isDigit]

end Digit

/-! ## Numbers as digit lists -/

def ofDigits (digits : List Digit) : Nat :=
  digits.foldl (fun number digit => 10 * number + digit.val) 0

def digitsBefore (number : Nat) (tail : List Digit) : List Digit :=
  if number < 10 then Fin.ofNat 10 number :: tail
  else digitsBefore (number / 10) (Fin.ofNat 10 number :: tail)
termination_by number

/-- The digits of a number, without leading zeros; zero has the one digit `0`. -/
def digits (number : Nat) : List Digit :=
  digitsBefore number []

theorem digitsBefore_eq_append (number : Nat) (tail : List Digit) :
    digitsBefore number tail = digits number ++ tail := by
  induction number using Nat.strongRecOn generalizing tail with
  | ind number ih =>
      unfold digits
      rw [digitsBefore, digitsBefore.eq_def number []]
      split
      · rfl
      · rw [ih (number / 10) (by omega), ih (number / 10) (by omega) [_]]
        simp

theorem digits_of_lt {number : Nat} (h : number < 10) :
    digits number = [Fin.ofNat 10 number] := by
  rw [digits, digitsBefore, if_pos h]

theorem digits_of_le {number : Nat} (h : 10 ≤ number) :
    digits number = digits (number / 10) ++ [Fin.ofNat 10 number] := by
  rw [digits, digitsBefore, if_neg (by omega), digitsBefore_eq_append]

@[simp] theorem ofDigits_nil : ofDigits [] = 0 := rfl

theorem foldl_digits (number : Nat) (digits : List Digit) :
    digits.foldl (fun number digit => 10 * number + digit.val) number =
      number * 10 ^ digits.length + ofDigits digits := by
  induction digits generalizing number with
  | nil => simp
  | cons digit digits ih =>
      simp only [List.foldl_cons, List.length_cons, ofDigits]
      rw [ih, ih (10 * 0 + digit.val), Nat.add_mul, Nat.pow_succ]
      simp [Nat.mul_comm, Nat.mul_assoc, Nat.add_assoc]

theorem ofDigits_append (first second : List Digit) :
    ofDigits (first ++ second) = ofDigits first * 10 ^ second.length + ofDigits second := by
  rw [ofDigits, List.foldl_append, foldl_digits]
  rfl

@[simp] theorem ofDigits_digits (number : Nat) : ofDigits (digits number) = number := by
  induction number using Nat.strongRecOn with
  | ind number ih =>
      by_cases h : number < 10
      · simp [digits_of_lt h, ofDigits, Fin.ofNat, Nat.mod_eq_of_lt h]
      · rw [digits_of_le (Nat.le_of_not_lt h), ofDigits_append, ih _ (by omega)]
        simp [ofDigits, Fin.ofNat]
        omega

@[simp] theorem ofDigits_replicate_zero (count : Nat) :
    ofDigits (List.replicate count 0) = 0 := by
  induction count with
  | zero => rfl
  | succ count ih =>
      rw [List.replicate_succ, ← List.singleton_append, ofDigits_append, ih]
      simp [ofDigits]

end InfixArithmetic
