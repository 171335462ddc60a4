import InfixArithmetic.Record
import InfixArithmetic.Session

/-!
# Evaluations

What an evaluation answers, and how two of them are put one after the other: the folds of both are
kept in order, and after a failure nothing more is done.  A `Run` also knows that it gave back no
token, which is what lets an evaluator call itself on the session a run has left.
-/

namespace InfixArithmetic

/-- What came out, where the session then stands, and the folds made on the way. -/
structure Evaluation where
  outcome : Except EvalError Float
  session : Session
  folds : List Fold

namespace Evaluation

def ok (value : Float) (session : Session) : Evaluation :=
  ⟨.ok value, session, []⟩

def error (error : EvalError) (session : Session) : Evaluation :=
  ⟨.error error, session, []⟩

/-- Goes on from a value; a failure stands. -/
@[inline] def andThen (first : Evaluation) (next : Float → Session → Evaluation) : Evaluation :=
  match first.outcome with
  | .ok value =>
      let second := next value first.session
      { second with folds := first.folds ++ second.folds }
  | .error _ => first

@[inline] def after (fold : Fold) (evaluation : Evaluation) : Evaluation :=
  { evaluation with folds := fold :: evaluation.folds }

@[inline] def leave (evaluation : Evaluation) : Evaluation :=
  { evaluation with session := evaluation.session.leave }

end Evaluation

/-! ## Runs -/

structure Run (start : Session) extends Evaluation where
  left_le : session.left ≤ start.left

namespace Run

variable {start : Session}

def ok (value : Float) (session : Session) (h : session.left ≤ start.left) : Run start :=
  ⟨.ok value session, h⟩

def error (error : EvalError) (session : Session) (h : session.left ≤ start.left) : Run start :=
  ⟨.error error session, h⟩

@[inline] def andThen (first : Run start)
    (next : Float → (session : Session) → session.left ≤ start.left → Run session) : Run start :=
  match first with
  | ⟨⟨.ok value, session, folds⟩, h⟩ =>
      let second := next value session h
      ⟨{ second.toEvaluation with folds := folds ++ second.folds }, Nat.le_trans second.left_le h⟩
  | ⟨⟨.error error, session, folds⟩, h⟩ => ⟨⟨.error error, session, folds⟩, h⟩

@[inline] def after (fold : Fold) (run : Run start) : Run start :=
  ⟨run.toEvaluation.after fold, run.left_le⟩

@[inline] def leave (run : Run start.enter) : Run start :=
  ⟨run.toEvaluation.leave, run.left_le⟩

@[inline] def weaken {session : Session} (run : Run session) (h : session.left ≤ start.left) :
    Run start :=
  ⟨run.toEvaluation, Nat.le_trans run.left_le h⟩

theorem toEvaluation_andThen (first : Run start) (next : Float → (session : Session) → Run session) :
    (first.andThen fun value session _ => next value session).toEvaluation =
      first.toEvaluation.andThen fun value session => (next value session).toEvaluation := by
  obtain ⟨⟨outcome, session, folds⟩, h⟩ := first
  cases outcome <;> rfl

end Run

end InfixArithmetic
