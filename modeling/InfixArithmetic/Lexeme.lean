import InfixArithmetic.Token

/-!
# Lexemes

A lexeme is a piece of text together with its spelling.  A numeral keeps its digits here, and only
its token forgets them.
-/

namespace InfixArithmetic

inductive Lexeme where
  | numeral (spelling : Numeral)
  | operator (op : Operator)
  | delimiter (side : Delimiter)
  | eol
  deriving DecidableEq

namespace Lexeme

def chars : Lexeme → List Char
  | numeral spelling => spelling.chars
  | operator op => [op.symbol]
  | delimiter side => [side.symbol]
  | eol => ['E', 'O', 'L']

def token : Lexeme → Token
  | numeral spelling => .number spelling.value
  | operator op => .operator op
  | delimiter side => .delimiter side
  | eol => .eol

/-- The lexeme that a character is on its own, digits apart. -/
def ofSymbol? : Char → Option Lexeme
  | '(' => some (delimiter .left)
  | ')' => some (delimiter .right)
  | char => (Operator.ofChar? char).map operator

theorem chars_of_ofSymbol? {char : Char} {lexeme : Lexeme} (h : ofSymbol? char = some lexeme) :
    lexeme.chars = [char] := by
  unfold ofSymbol? at h
  split at h
  · cases h
    rfl
  · cases h
    rfl
  · obtain ⟨op, hop, rfl⟩ := Option.map_eq_some_iff.1 h
    simp [chars, Operator.ofChar?_eq_some_iff.1 hop]

end Lexeme

end InfixArithmetic
