import InfixArithmetic.Cursor
import InfixArithmetic.Options

/-!
# Sessions

A session evaluates expressions over one sequence of tokens.  It keeps the options it was opened
with and counts the groups that are open, none between two evaluations.
-/

namespace InfixArithmetic

structure Session extends Cursor where
  depth : UInt64 := 0
  options : Options := {}
  deriving DecidableEq, Repr

namespace Session

def ofCursor (cursor : Cursor) (options : Options) : Session :=
  { tokens := cursor.remaining.toArray, options }

def ofText (text : String) (options : Options) : Except EvalError Session :=
  match Cursor.ofText text with
  | .ok cursor => .ok (ofCursor cursor options)
  | .error error => .error (.scan error)

def advance (session : Session) : Session :=
  { session with toCursor := session.toCursor.advance }

def enter (session : Session) : Session :=
  { session with depth := session.depth + 1 }

def leave (session : Session) : Session :=
  { session with depth := session.depth - 1 }

/-- The operator in front, if it binds at the given level. -/
def operatorAt? (session : Session) (level : Nat) : Option Operator :=
  match session.peek with
  | .operator op => if op.level = level then some op else none
  | _ => none

theorem left_advance_le (session : Session) : session.advance.left ≤ session.left :=
  session.toCursor.left_advance_le

theorem left_advance_lt {session : Session} (h : session.peek ≠ .eol) :
    session.advance.left < session.left :=
  Cursor.left_advance_lt h

theorem peek_eq_of_operatorAt? {session : Session} {level : Nat} {op : Operator}
    (h : session.operatorAt? level = some op) : session.peek = .operator op := by
  unfold operatorAt? at h
  split at h
  · simp_all
  · contradiction

theorem level_eq_of_operatorAt? {session : Session} {level : Nat} {op : Operator}
    (h : session.operatorAt? level = some op) : op.level = level := by
  unfold operatorAt? at h
  split at h
  · split at h <;> simp_all
  · contradiction

end Session

end InfixArithmetic
