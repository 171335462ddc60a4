import InfixArithmetic.Proofs.Scan.Tiling

/-!
# The alphabet of lexemes

Lexemes are made of few characters, and a text that has tokens is made of these and blanks.  None of
them is blank, so the characters of a tiling are a text of their own.
-/

namespace InfixArithmetic

/-- The characters that lexemes are made of. -/
def alphabet : List Char :=
  "0123456789.+-*/()EOL".toList

theorem isBlank_eq_false_of_mem_alphabet {char : Char} (h : char ∈ alphabet) :
    isBlank char = false := by
  have hall : alphabet.all (fun char => !isBlank char) = true := by decide
  simpa using List.all_eq_true.1 hall char h

theorem Digit.char_mem_alphabet : ∀ digit : Digit, digit.char ∈ alphabet := by
  decide

theorem mem_alphabet_of_isNumeric {char : Char} (h : Scan.isNumeric char = true) :
    char ∈ alphabet := by
  rcases Bool.or_eq_true_iff.1 h with hdigit | hpoint
  · obtain ⟨digit, hdigit⟩ := Option.isSome_iff_exists.1 hdigit
    rw [Digit.ofChar?_eq_some_iff.1 hdigit]
    exact digit.char_mem_alphabet
  · rw [beq_iff_eq.1 hpoint]
    decide

theorem Lexeme.mem_alphabet {lexeme : Lexeme} {char : Char} (h : char ∈ lexeme.chars) :
    char ∈ alphabet := by
  cases lexeme with
  | numeral spelling => exact mem_alphabet_of_isNumeric (Numeral.isNumeric_of_mem_chars h)
  | operator op =>
      rw [List.mem_singleton.1 h]
      cases op <;> decide
  | delimiter side =>
      rw [List.mem_singleton.1 h]
      cases side <;> decide
  | eol =>
      simp only [chars, List.mem_cons, List.not_mem_nil, or_false] at h
      rcases h with rfl | rfl | rfl <;> decide

namespace Tiles

variable {lexemes : List Lexeme} {text : List Char}

theorem mem_alphabet (h : Tiles lexemes text) {char : Char} (hchar : char ∈ text) :
    char ∈ alphabet := by
  rw [← h.chars_eq] at hchar
  obtain ⟨lexeme, -, hlexeme⟩ := List.mem_flatMap.1 hchar
  exact lexeme.mem_alphabet hlexeme

theorem visible_ofList (h : Tiles lexemes text) : visible (String.ofList text) = text := by
  apply visible_ofList_eq_self
  intro char hchar
  exact isBlank_eq_false_of_mem_alphabet (h.mem_alphabet hchar)

end Tiles

end InfixArithmetic
