import InfixArithmetic.Token

/-!
# Log records

What is recorded on the way from a text to its value: the tokens as they are scanned, a summary of
the scan, and each application of an operator.
-/

namespace InfixArithmetic

structure Fold where
  lhs : Float
  op : Operator
  rhs : Float
  deriving DecidableEq, Repr

def Fold.value (fold : Fold) : Float :=
  fold.op.apply fold.lhs fold.rhs

def Fold.text (fold : Fold) : String :=
  floatText fold.lhs ++ " " ++ toString fold.op ++ " " ++ floatText fold.rhs

inductive Record where
  | scanned (index : Nat) (token : Token)
  | summary (count : Nat) (text : String)
  | fold (step : Fold)
  deriving DecidableEq, Repr

def Record.line : Record → String
  | scanned index token =>
      "DEBUG " ++ toString index ++ ": " ++ token.kind.name ++ " " ++ token.text
  | summary count text => "TRACE scanned " ++ toString count ++ " tokens from \"" ++ text ++ "\""
  | fold step => "TRACE " ++ step.text

end InfixArithmetic
