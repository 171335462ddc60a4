import InfixArithmetic.Evaluation

/-!
# Evaluating expressions

An expression is evaluated while it is read, and no tree is built.  One routine serves every level of
operators: it folds a chain of operands from the left, and its operands are the expressions of the
next tighter level or, past the tightest one, numbers and groups.

A token is passed as soon as it is used, so `Session.left` falls with every operator and every group,
and between two such steps the level only rises: evaluation ends on every sequence of tokens.
-/

namespace InfixArithmetic

namespace Session

open Operator (loosest tightest)

/-! ## The routines -/

def closing (value : Float) (session : Session) : Run session :=
  if session.peek = .delimiter .right then .ok value session.advance session.left_advance_le
  else .error .mismatchedParentheses session (Nat.le_refl _)

def slack (level : Nat) : Nat :=
  tightest + 1 - level

mutual

/-- A chain of operands joined by operators of one level, folded from the left. -/
def expressionRun (level : Nat) (session : Session) : Run session :=
  (operandRun level session).andThen fun value rest _ => chainRun level value rest
termination_by (session.left, 2 * slack level + 2)
decreasing_by
  · exact Prod.Lex.right _ (by omega)
  · rename_i h
    rcases Nat.lt_or_eq_of_le h with h | h
    · exact Prod.Lex.left _ _ h
    · rw [h]
      exact Prod.Lex.right _ (by omega)

/-- The rest of a chain, after operands with the given value. -/
def chainRun (level : Nat) (lhs : Float) (session : Session) : Run session :=
  match _h : session.operatorAt? level with
  | none => .ok lhs session (Nat.le_refl _)
  | some op =>
      ((operandRun level session.advance).andThen fun rhs rest _ =>
        (chainRun level (op.apply lhs rhs) rest).after ⟨lhs, op, rhs⟩).weaken
          session.left_advance_le
termination_by (session.left, 0)
decreasing_by
  all_goals
    have hpeek := session.peek_eq_of_operatorAt? _h
    have hlt : session.advance.left < session.left := left_advance_lt (by simp [hpeek])
  · exact Prod.Lex.left _ _ hlt
  · exact Prod.Lex.left _ _ (by omega)

/-- An operand of a chain: an expression of the next level, or a number or group. -/
def operandRun (level : Nat) (session : Session) : Run session :=
  if level < tightest then expressionRun (level + 1) session else primaryRun session
termination_by (session.left, 2 * slack level + 1)
decreasing_by
  · exact Prod.Lex.right _ (by simp only [slack]; omega)
  · exact Prod.Lex.right _ (by omega)

def primaryRun (session : Session) : Run session :=
  match _h : session.peek with
  | .number value => .ok value session.advance session.left_advance_le
  | .delimiter .left => (groupRun session.advance).weaken session.left_advance_le
  | token => .error (.unexpectedToken token) session.advance session.left_advance_le
termination_by (session.left, 0)
decreasing_by
  exact Prod.Lex.left _ _ (left_advance_lt (by simp [_h]))

/-- The rest of a group after its opening parenthesis, which was passed. -/
def groupRun (session : Session) : Run session :=
  if session.options.maxDepth ≤ session.depth then
    .error (.maxDepthExceeded session.options.maxDepth) session (Nat.le_refl _)
  else
    (expressionRun loosest session.enter).leave.andThen fun value rest _ => closing value rest
termination_by (session.left, 2 * slack loosest + 3)
decreasing_by
  exact Prod.Lex.right _ (by omega)

end

/-! ## What the routines answer -/

def expression (level : Nat) (session : Session) : Evaluation :=
  (session.expressionRun level).toEvaluation

def chain (level : Nat) (lhs : Float) (session : Session) : Evaluation :=
  (session.chainRun level lhs).toEvaluation

def operand (level : Nat) (session : Session) : Evaluation :=
  (session.operandRun level).toEvaluation

def primary (session : Session) : Evaluation :=
  session.primaryRun.toEvaluation

def group (session : Session) : Evaluation :=
  session.groupRun.toEvaluation

def close (value : Float) (session : Session) : Evaluation :=
  (session.closing value).toEvaluation

theorem expression_eq (level : Nat) (session : Session) :
    session.expression level =
      (session.operand level).andThen fun value rest => rest.chain level value := by
  rw [expression, expressionRun]
  exact Run.toEvaluation_andThen _ _

theorem chain_of_operatorAt?_eq_none {level : Nat} {lhs : Float} {session : Session}
    (h : session.operatorAt? level = none) :
    session.chain level lhs = .ok lhs session := by
  rw [chain, chainRun]
  split
  · rfl
  · simp_all

theorem chain_of_operatorAt?_eq_some {level : Nat} {lhs : Float} {session : Session} {op : Operator}
    (h : session.operatorAt? level = some op) :
    session.chain level lhs =
      (session.advance.operand level).andThen fun rhs rest =>
        (rest.chain level (op.apply lhs rhs)).after ⟨lhs, op, rhs⟩ := by
  rw [chain, chainRun]
  split
  · simp_all
  · rename_i op' h'
    obtain rfl : op = op' := by simp_all
    exact Run.toEvaluation_andThen (session.advance.operandRun level)
      fun rhs rest => (rest.chainRun level (op.apply lhs rhs)).after ⟨lhs, op, rhs⟩

theorem operand_eq (level : Nat) (session : Session) :
    session.operand level =
      if level < tightest then session.expression (level + 1) else session.primary := by
  rw [operand, operandRun]
  split <;> rfl

theorem primary_eq (session : Session) :
    session.primary =
      match session.peek with
      | .number value => .ok value session.advance
      | .delimiter .left => session.advance.group
      | token => .error (.unexpectedToken token) session.advance := by
  rw [primary, primaryRun]
  split <;> simp_all <;> rfl

theorem group_eq (session : Session) :
    session.group =
      if session.options.maxDepth ≤ session.depth then
        .error (.maxDepthExceeded session.options.maxDepth) session
      else
        (session.enter.expression loosest).leave.andThen fun value rest => rest.close value := by
  rw [group, groupRun]
  split
  · rfl
  · exact Run.toEvaluation_andThen _ fun value rest => rest.closing value

theorem close_eq (value : Float) (session : Session) :
    session.close value =
      if session.peek = .delimiter .right then .ok value session.advance
      else .error .mismatchedParentheses session := by
  unfold close closing
  split <;> rfl

/-! ## What a session is asked for -/

/-- One expression; what follows it is left where it is. -/
def evaluate (session : Session) : Evaluation :=
  session.expression loosest

/-- One number; the next token is passed even if it is none. -/
def number (session : Session) : Evaluation :=
  match session.peek with
  | .number value => .ok value session.advance
  | token => .error (.expectedNumber token) session.advance

end Session

end InfixArithmetic
