import InfixArithmetic.FloatText
import InfixArithmetic.Operator

/-!
# Tokens

What the pieces of a text mean: a number stands for its float, not for the numeral that wrote it.
Equality of tokens tells all floats apart; `Token.agrees` compares numbers as arithmetic does, so
that NaN agrees with nothing and the two zeros agree.
-/

namespace InfixArithmetic

inductive Delimiter where
  | left
  | right
  deriving DecidableEq, Repr

def Delimiter.symbol : Delimiter → Char
  | .left => '('
  | .right => ')'

/-- The word that ends a text, and the text of the token that ends every scan. -/
def endMarker : String := "EOL"

inductive Token where
  | number (value : Float)
  | operator (op : Operator)
  | delimiter (side : Delimiter)
  | eol
  deriving DecidableEq, Repr

namespace Token

inductive Kind where
  | number
  | operator
  | delimiter
  | endOfLine
  deriving DecidableEq, Repr

def Kind.name : Kind → String
  | number => "NUMBER"
  | operator => "OPERATOR"
  | delimiter => "DELIMITER"
  | endOfLine => "END"

def kind : Token → Kind
  | number _ => .number
  | operator _ => .operator
  | delimiter _ => .delimiter
  | eol => .endOfLine

def text : Token → String
  | number value => floatText value
  | operator op => op.symbol.toString
  | delimiter side => side.symbol.toString
  | eol => endMarker

def agrees : Token → Token → Bool
  | number first, number second => first == second
  | first, second => first = second

end Token

end InfixArithmetic
