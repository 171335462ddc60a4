import InfixArithmetic.Session.Evaluate

/-!
# Rules of evaluation

`Answers routine session evaluation` says by rules what a routine answers on a session.  Each rule is
one way through one routine, so a fact about all evaluations is an induction on the rules with one
case for each way.  `answers_iff` says that the rules hold of exactly what the routines compute.
-/

namespace InfixArithmetic

open Operator (loosest tightest)

inductive Routine where
  | expression (level : Nat)
  | chain (level : Nat) (lhs : Float)
  | operand (level : Nat)
  | primary
  | group

def Routine.run : Routine → Session → Evaluation
  | expression level, session => session.expression level
  | chain level lhs, session => session.chain level lhs
  | operand level, session => session.operand level
  | primary, session => session.primary
  | group, session => session.group

inductive Answers : Routine → Session → Evaluation → Prop
  | expression {level session value rest folds outcome stop more} :
      Answers (.operand level) session ⟨.ok value, rest, folds⟩ →
      Answers (.chain level value) rest ⟨outcome, stop, more⟩ →
      Answers (.expression level) session ⟨outcome, stop, folds ++ more⟩
  | expressionError {level session error stop folds} :
      Answers (.operand level) session ⟨.error error, stop, folds⟩ →
      Answers (.expression level) session ⟨.error error, stop, folds⟩
  | stop {level lhs session} (h : session.operatorAt? level = none) :
      Answers (.chain level lhs) session ⟨.ok lhs, session, []⟩
  | fold {level lhs session op rhs rest folds outcome stop more}
      (h : session.operatorAt? level = some op) :
      Answers (.operand level) session.advance ⟨.ok rhs, rest, folds⟩ →
      Answers (.chain level (op.apply lhs rhs)) rest ⟨outcome, stop, more⟩ →
      Answers (.chain level lhs) session ⟨outcome, stop, folds ++ ⟨lhs, op, rhs⟩ :: more⟩
  | foldError {level lhs session op error stop folds} (h : session.operatorAt? level = some op) :
      Answers (.operand level) session.advance ⟨.error error, stop, folds⟩ →
      Answers (.chain level lhs) session ⟨.error error, stop, folds⟩
  | tighter {level session evaluation} (h : level < tightest) :
      Answers (.expression (level + 1)) session evaluation →
      Answers (.operand level) session evaluation
  | tightest {level session evaluation} (h : tightest ≤ level) :
      Answers .primary session evaluation →
      Answers (.operand level) session evaluation
  | number {session value} (h : session.peek = .number value) :
      Answers .primary session ⟨.ok value, session.advance, []⟩
  | opening {session evaluation} (h : session.peek = .delimiter .left) :
      Answers .group session.advance evaluation →
      Answers .primary session evaluation
  | unexpected {session} (hnumber : ∀ value, session.peek ≠ .number value)
      (hleft : session.peek ≠ .delimiter .left) :
      Answers .primary session ⟨.error (.unexpectedToken session.peek), session.advance, []⟩
  | tooDeep {session} (h : session.options.maxDepth ≤ session.depth) :
      Answers .group session ⟨.error (.maxDepthExceeded session.options.maxDepth), session, []⟩
  | closed {session value rest folds} (h : session.depth < session.options.maxDepth)
      (hclose : rest.peek = .delimiter .right) :
      Answers (.expression loosest) session.enter ⟨.ok value, rest, folds⟩ →
      Answers .group session ⟨.ok value, rest.leave.advance, folds⟩
  | unclosed {session value rest folds} (h : session.depth < session.options.maxDepth)
      (hclose : rest.peek ≠ .delimiter .right) :
      Answers (.expression loosest) session.enter ⟨.ok value, rest, folds⟩ →
      Answers .group session ⟨.error .mismatchedParentheses, rest.leave, folds⟩
  | groupError {session error stop folds} (h : session.depth < session.options.maxDepth) :
      Answers (.expression loosest) session.enter ⟨.error error, stop, folds⟩ →
      Answers .group session ⟨.error error, stop.leave, folds⟩

/-! ## The rules say what the routines compute -/

theorem Answers.run_eq {routine : Routine} {session : Session} {evaluation : Evaluation}
    (h : Answers routine session evaluation) : routine.run session = evaluation := by
  induction h with
  | expression _ _ ihOperand ihChain =>
      simp only [Routine.run] at ihOperand ihChain ⊢
      rw [Session.expression_eq, ihOperand, Evaluation.andThen]
      simp only [ihChain]
  | expressionError _ ih =>
      simp only [Routine.run] at ih ⊢
      rw [Session.expression_eq, ih]
      rfl
  | stop h => exact Session.chain_of_operatorAt?_eq_none h
  | fold h _ _ ihOperand ihChain =>
      simp only [Routine.run] at ihOperand ihChain ⊢
      rw [Session.chain_of_operatorAt?_eq_some h, ihOperand, Evaluation.andThen]
      simp only [ihChain, Evaluation.after]
  | foldError h _ ih =>
      simp only [Routine.run] at ih ⊢
      rw [Session.chain_of_operatorAt?_eq_some h, ih]
      rfl
  | tighter h _ ih =>
      simp only [Routine.run] at ih ⊢
      rw [Session.operand_eq, if_pos h, ih]
  | tightest h _ ih =>
      simp only [Routine.run] at ih ⊢
      rw [Session.operand_eq, if_neg (Nat.not_lt.2 h), ih]
  | number h =>
      simp only [Routine.run, Session.primary_eq, h]
      rfl
  | opening h _ ih =>
      simp only [Routine.run] at ih ⊢
      simp only [Session.primary_eq, h, ih]
  | unexpected hnumber hleft =>
      simp only [Routine.run, Session.primary_eq]
      rfl
  | tooDeep h =>
      simp only [Routine.run, Session.group_eq, if_pos h]
      rfl
  | @closed session value rest folds h hclose _ ih =>
      have hpeek : rest.leave.peek = .delimiter .right := hclose
      simp only [Routine.run] at ih ⊢
      rw [Session.group_eq, if_neg (UInt64.not_le.2 h), ih]
      simp [Evaluation.leave, Evaluation.andThen, Session.close_eq, hpeek, Evaluation.ok]
  | @unclosed session value rest folds h hclose _ ih =>
      have hpeek : rest.leave.peek ≠ .delimiter .right := hclose
      simp only [Routine.run] at ih ⊢
      rw [Session.group_eq, if_neg (UInt64.not_le.2 h), ih]
      simp [Evaluation.leave, Evaluation.andThen, Session.close_eq, hpeek, Evaluation.error]
  | groupError h _ ih =>
      simp only [Routine.run] at ih ⊢
      rw [Session.group_eq, if_neg (UInt64.not_le.2 h), ih]
      rfl

def Routine.weight : Routine → Nat
  | expression level => 2 * Session.slack level + 2
  | chain _ _ => 0
  | operand level => 2 * Session.slack level + 1
  | primary => 0
  | group => 2 * Session.slack loosest + 3

theorem Session.left_operand_le (level : Nat) (session : Session) :
    (session.operand level).session.left ≤ session.left :=
  (session.operandRun level).left_le

/-- Some rule applies to every routine and session: a call either passes a token or has a lower
weight. -/
theorem answers_run (routine : Routine) (session : Session) :
    Answers routine session (routine.run session) := by
  suffices h : ∃ evaluation, Answers routine session evaluation by
    obtain ⟨evaluation, h⟩ := h
    rwa [h.run_eq]
  match routine with
  | .expression level =>
      have hoperand := answers_run (.operand level) session
      cases hrun : session.operand level with
      | mk outcome rest folds =>
          simp only [Routine.run, hrun] at hoperand
          cases outcome with
          | error error => exact ⟨_, .expressionError hoperand⟩
          | ok value =>
              have hrest : rest.left ≤ session.left := by
                simpa only [hrun] using session.left_operand_le level
              exact ⟨_, .expression hoperand (answers_run (.chain level value) rest)⟩
  | .chain level lhs =>
      cases hop : session.operatorAt? level with
      | none => exact ⟨_, .stop hop⟩
      | some op =>
          have hadvance : session.advance.left < session.left :=
            Session.left_advance_lt (by simp [session.peek_eq_of_operatorAt? hop])
          have hoperand := answers_run (.operand level) session.advance
          cases hrun : session.advance.operand level with
          | mk outcome rest folds =>
              simp only [Routine.run, hrun] at hoperand
              cases outcome with
              | error error => exact ⟨_, .foldError hop hoperand⟩
              | ok rhs =>
                  have hrest : rest.left ≤ session.advance.left := by
                    simpa only [hrun] using session.advance.left_operand_le level
                  exact ⟨_, .fold hop hoperand (answers_run (.chain level (op.apply lhs rhs)) rest)⟩
  | .operand level =>
      by_cases h : level < tightest
      · exact ⟨_, .tighter h (answers_run (.expression (level + 1)) session)⟩
      · exact ⟨_, .tightest (Nat.le_of_not_lt h) (answers_run .primary session)⟩
  | .primary =>
      cases hpeek : session.peek with
      | number value => exact ⟨_, .number hpeek⟩
      | delimiter side =>
          cases side with
          | left =>
              have hadvance : session.advance.left < session.left :=
                Session.left_advance_lt (by simp [hpeek])
              exact ⟨_, .opening hpeek (answers_run .group session.advance)⟩
          | right => exact ⟨_, .unexpected (by simp [hpeek]) (by simp [hpeek])⟩
      | operator op => exact ⟨_, .unexpected (by simp [hpeek]) (by simp [hpeek])⟩
      | eol => exact ⟨_, .unexpected (by simp [hpeek]) (by simp [hpeek])⟩
  | .group =>
      by_cases h : session.options.maxDepth ≤ session.depth
      · exact ⟨_, .tooDeep h⟩
      · have hdepth := UInt64.not_le.1 h
        have henter : session.enter.left = session.left := rfl
        have hbody := answers_run (.expression loosest) session.enter
        cases hrun : session.enter.expression loosest with
        | mk outcome rest folds =>
            simp only [Routine.run, hrun] at hbody
            cases outcome with
            | error error => exact ⟨_, .groupError hdepth hbody⟩
            | ok value =>
                by_cases hclose : rest.peek = .delimiter .right
                · exact ⟨_, .closed hdepth hclose hbody⟩
                · exact ⟨_, .unclosed hdepth hclose hbody⟩
termination_by (session.left, routine.weight)
decreasing_by
  all_goals
    simp only [Prod.lex_def, Routine.weight, Session.slack, true_and]
    omega

theorem answers_iff {routine : Routine} {session : Session} {evaluation : Evaluation} :
    Answers routine session evaluation ↔ routine.run session = evaluation := by
  constructor
  · exact Answers.run_eq
  · rintro rfl
    exact answers_run routine session

/-! ## What follows a chain -/

/-- An operator in front binds more loosely than the level. -/
def Session.LooserThan (session : Session) (level : Nat) : Prop :=
  ∀ op, session.peek = .operator op → op.level < level

theorem Session.operatorAt?_eq_some_iff {session : Session} {level : Nat} {op : Operator} :
    session.operatorAt? level = some op ↔ session.peek = .operator op ∧ op.level = level := by
  constructor
  · intro h
    exact ⟨session.peek_eq_of_operatorAt? h, session.level_eq_of_operatorAt? h⟩
  · rintro ⟨hpeek, hlevel⟩
    simp [operatorAt?, hpeek, hlevel]

theorem Session.LooserThan.operatorAt?_eq_none {session : Session} {level : Nat}
    (h : session.LooserThan level) : session.operatorAt? level = none := by
  cases hop : session.operatorAt? level with
  | none => rfl
  | some op =>
      obtain ⟨hpeek, hlevel⟩ := operatorAt?_eq_some_iff.1 hop
      have hlt := h op hpeek
      omega

theorem Session.LooserThan.of_le {session : Session} {level bound : Nat}
    (h : session.LooserThan level) (hle : level ≤ bound) : session.LooserThan bound :=
  fun op hpeek => Nat.lt_of_lt_of_le (h op hpeek) hle

theorem Session.looserThan_of_ne_operator {session : Session} {level : Nat}
    (h : ∀ op, session.peek ≠ .operator op) : session.LooserThan level :=
  fun op hpeek => absurd hpeek (h op)

/-- A chain goes on as long as it can: what follows it is no operator of its level, nor of a tighter
one unless the chain started in front of it. -/
def Routine.Follows : Routine → Session → Session → Prop
  | expression level, _, stop => stop.LooserThan level
  | chain level _, start, stop => start.LooserThan (level + 1) → stop.LooserThan level
  | operand level, _, stop => stop.LooserThan (level + 1)
  | primary, _, _ | group, _, _ => True

theorem Answers.follows {routine : Routine} {session : Session} {evaluation : Evaluation}
    (h : Answers routine session evaluation) {value : Float} (hok : evaluation.outcome = .ok value) :
    routine.Follows session evaluation.session := by
  induction h generalizing value with
  | expression _ _ ihOperand ihChain => exact ihChain hok (ihOperand rfl)
  | fold _ _ _ ihOperand ihChain =>
      intro _
      exact ihChain hok (ihOperand rfl)
  | @stop level lhs session hstop =>
      intro hstart op hpeek
      have hle := hstart op hpeek
      have hne : op.level ≠ level := by
        intro hlevel
        rw [Session.operatorAt?_eq_some_iff.2 ⟨hpeek, hlevel⟩] at hstop
        contradiction
      omega
  | tighter _ _ ih => exact ih hok
  | tightest hlevel _ _ =>
      intro op _
      have hop := Operator.level_le_tightest op
      omega
  | expressionError | foldError => contradiction
  | number | opening | unexpected | tooDeep | closed | unclosed | groupError => trivial

theorem Answers.peek_ne_operator {session : Session} {evaluation : Evaluation}
    (h : Answers (.expression loosest) session evaluation) {value : Float}
    (hok : evaluation.outcome = .ok value) (op : Operator) :
    evaluation.session.peek ≠ .operator op := by
  intro hpeek
  have hlt := h.follows hok op hpeek
  have hle := Operator.loosest_le_level op
  omega

end InfixArithmetic
