/-!
# Evaluation options

Each session owns its options; nothing is shared between sessions.
-/

namespace InfixArithmetic

structure Options where
  debug : Bool := false
  /-- How deep parentheses may nest; at `0` no parenthesis is accepted. -/
  maxDepth : UInt64 := 256
  deriving DecidableEq, Repr

end InfixArithmetic
