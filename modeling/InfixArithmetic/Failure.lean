import InfixArithmetic.Token

/-!
# Failures

Why a text has no tokens, and why an evaluation has no value.  Failures agree when they have the same
cause and their tokens agree.
-/

namespace InfixArithmetic

inductive ScanError where
  | unknownToken (text : String)
  deriving DecidableEq, Repr

def ScanError.message : ScanError → String
  | unknownToken text => "Unknown token: " ++ text

inductive EvalError where
  | scan (error : ScanError)
  | unexpectedToken (token : Token)
  /-- A group goes on where its closing parenthesis was wanted. -/
  | mismatchedParentheses
  | expectedNumber (token : Token)
  /-- A group opens inside as many groups as may be nested. -/
  | maxDepthExceeded (limit : UInt64)
  deriving DecidableEq, Repr

namespace EvalError

def message : EvalError → String
  | scan error => error.message
  | unexpectedToken token => "Unexpected token: " ++ token.text
  | mismatchedParentheses => "Mismatched parentheses"
  | expectedNumber token => "Expected a number, but got: " ++ token.text
  | maxDepthExceeded limit => "Parentheses nested more than " ++ toString limit.toNat ++ " deep"

def agrees : EvalError → EvalError → Bool
  | unexpectedToken first, unexpectedToken second => first.agrees second
  | expectedNumber first, expectedNumber second => first.agrees second
  | first, second => first = second

end EvalError

end InfixArithmetic
