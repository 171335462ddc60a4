import InfixArithmetic.Proofs.Grammar.Evaluation
import InfixArithmetic.Proofs.OperatorStack

/-!
# Evaluation follows the operator-stack machine

The operators that wait in the calls of the evaluator are the entries of the stack.  The evaluator
applies them as a call returns and the machine as it sees the next token, so the two agree up to
reductions that no longer depend on what comes.  Main statements: `Session.evaluate_eq_reading`, an
evaluation is one run of the machine over the tokens in front, and
`folds_evaluate_eq_reductions`, its folds are the reductions of the machine.
-/

namespace InfixArithmetic

open Operator (loosest tightest)

/-- Reading goes on behind a value and ends with an error. -/
def Evaluation.resume (stack : Stack) (evaluation : Evaluation) : Reading :=
  match evaluation.outcome with
  | .ok value =>
      (Machine.operator value stack).run evaluation.session.options.maxDepth
        evaluation.session.remaining
  | .error error => ⟨.error error, 0, []⟩

/-- Reading from the session starts with what the evaluation did. -/
def Machine.Matches (machine : Machine) (start : Session) (stack : Stack)
    (evaluation : Evaluation) : Prop :=
  ∃ passed, evaluation.session = start.skip passed ∧
    machine.run start.options.maxDepth start.remaining =
      (evaluation.resume stack).after passed evaluation.folds

namespace Machine.Matches

variable {machine next : Machine} {start stop last : Session} {stack : Stack} {value : Float}
  {outcome : Except EvalError Float} {folds more : List Fold} {evaluation : Evaluation}

theorem value_self (start : Session) (stack : Stack) (value : Float) :
    (operator value stack).Matches start stack ⟨.ok value, start, []⟩ :=
  ⟨0, start.skip_zero.symm, by rw [Reading.after_zero_nil]; rfl⟩

theorem depth_eq (h : machine.Matches start stack evaluation) :
    evaluation.session.depth = start.depth := by
  obtain ⟨passed, hstop, -⟩ := h
  rw [hstop, Session.skip_depth]

theorem trans {inner : Stack} (first : machine.Matches start inner ⟨.ok value, stop, folds⟩)
    (second : (operator value inner).Matches stop stack ⟨outcome, last, more⟩) :
    machine.Matches start stack ⟨outcome, last, folds ++ more⟩ := by
  obtain ⟨passed, hstop, hfirst⟩ := first
  obtain ⟨passed', hlast, hsecond⟩ := second
  simp only [Evaluation.resume] at hstop hfirst
  refine ⟨passed + passed', ?_, ?_⟩
  · rw [hlast, hstop, Session.skip_skip]
  · rw [hfirst, hsecond, Reading.after_after]
    rfl

theorem of_step? (hstep : machine.step? start.options.maxDepth start.peek = some (next, folds))
    (h : next.Matches start.advance stack ⟨outcome, stop, more⟩) :
    machine.Matches start stack ⟨outcome, stop, folds ++ more⟩ := by
  have hpeek : start.peek ≠ .eol := by
    intro hpeek
    rw [hpeek, step?_eol] at hstep
    contradiction
  obtain ⟨passed, hstop, hrun⟩ := h
  refine ⟨1 + passed, ?_, ?_⟩
  · rw [hstop, Session.advance_eq_skip, Session.skip_skip]
  · rw [Session.remaining_eq_cons hpeek, run_cons_of_step? hstep]
    have hoptions : start.advance.options = start.options := rfl
    rw [← hoptions, hrun, Reading.after_after]
    rfl

theorem of_halt {error : EvalError} {passed : Nat}
    (hstep : machine.step? start.options.maxDepth start.peek = none)
    (hhalt : machine.halt start.options.maxDepth start.peek = ⟨.error error, passed, []⟩) :
    machine.Matches start stack ⟨.error error, start.skip passed, []⟩ := by
  refine ⟨passed, rfl, ?_⟩
  rw [Session.peek_eq_head?_remaining] at hstep hhalt
  rw [run_of_step?_eq_none hstep, hhalt]
  rfl

theorem leave (h : machine.Matches start.enter stack ⟨outcome, stop, folds⟩) :
    machine.Matches start stack ⟨outcome, stop.leave, folds⟩ := by
  obtain ⟨passed, hstop, hrun⟩ := h
  refine ⟨passed, ?_, hrun⟩
  change stop = start.enter.skip passed at hstop
  change stop.leave = start.skip passed
  rw [hstop, Session.enter_skip, Session.leave_enter]

/-- What is on top of the stack while a right operand is read is applied when the operand ends. -/
theorem apply {lhs rhs : Float} {op : Operator}
    (h : machine.Matches start (.pending lhs op :: stack) ⟨.ok rhs, stop, folds⟩)
    (hfollow : stop.LooserThan (op.level + 1)) :
    machine.Matches start stack ⟨.ok (op.apply lhs rhs), stop, folds ++ [⟨lhs, op, rhs⟩]⟩ := by
  obtain ⟨passed, hstop, hrun⟩ := h
  refine ⟨passed, hstop, ?_⟩
  have hnext : ∀ next, stop.remaining.head?.getD .eol = .operator next →
      next.level ≤ op.level := by
    intro next hnext
    rw [← Session.peek_eq_head?_remaining] at hnext
    exact Nat.le_of_lt_succ (hfollow next hnext)
  simp only [Evaluation.resume] at hrun ⊢
  rw [hrun, run_pending hnext, Reading.after_after]
  rfl

/-! ### Tokens -/

theorem number (hpeek : start.peek = .number value) (stack : Stack) :
    (operand stack).Matches start stack ⟨.ok value, start.advance, []⟩ := by
  have hstep : (operand stack).step? start.options.maxDepth start.peek =
      some (operator value stack, []) := by
    rw [hpeek]
    rfl
  exact .of_step? hstep (.value_self start.advance stack value)

theorem unexpected (hnumber : ∀ value, start.peek ≠ .number value)
    (hleft : start.peek ≠ .delimiter .left) (stack : Stack) :
    (operand stack).Matches start stack
      ⟨.error (.unexpectedToken start.peek), start.advance, []⟩ := by
  have hstep : (operand stack).step? start.options.maxDepth start.peek = none :=
    step?_eq_none_iff.2 (Place.step?_operand_eq_none hnumber hleft)
  have hhalt : (operand stack).halt start.options.maxDepth start.peek =
      ⟨.error (.unexpectedToken start.peek), 1, []⟩ := by
    rw [halt, if_neg hleft]
  exact .of_halt hstep hhalt

theorem tooDeep (hpeek : start.peek = .delimiter .left)
    (hdepth : start.options.maxDepth ≤ start.depth) (hopened : stack.opened = start.depth.toNat) :
    (operand stack).Matches start stack
      ⟨.error (.maxDepthExceeded start.options.maxDepth), start.advance, []⟩ := by
  have hstep : (operand stack).step? start.options.maxDepth start.peek = none := by
    rw [hpeek, step?_eq_none_iff]
    apply Place.step?_left_of_le
    rw [hopened]
    exact UInt64.le_iff_toNat_le.1 hdepth
  have hhalt : (operand stack).halt start.options.maxDepth start.peek =
      ⟨.error (.maxDepthExceeded start.options.maxDepth), 1, []⟩ := by
    rw [halt, if_pos hpeek]
  exact .of_halt hstep hhalt

/-- An operator that binds more tightly than what is on top of the stack waits there. -/
theorem push {lhs : Float} {op : Operator} (hpeek : start.peek = .operator op)
    (hbelow : stack.Below op.level)
    (h : (operand (.pending lhs op :: stack)).Matches start.advance stack ⟨outcome, stop, folds⟩) :
    (operator lhs stack).Matches start stack ⟨outcome, stop, folds⟩ := by
  have hstep : (operator lhs stack).step? start.options.maxDepth start.peek =
      some (operand (.pending lhs op :: stack), []) := by
    rw [hpeek, step?, hbelow.reduce_eq]
  exact .of_step? hstep h

theorem closed (hpeek : start.peek = .delimiter .right) (stack : Stack) (value : Float) :
    (operator value (.marker :: stack)).Matches start stack ⟨.ok value, start.advance, []⟩ := by
  have hstep : (operator value (.marker :: stack)).step? start.options.maxDepth start.peek =
      some (operator value stack, []) := by
    rw [hpeek]
    rfl
  exact .of_step? hstep (.value_self start.advance stack value)

theorem unclosed (hoperator : ∀ op, start.peek ≠ .operator op)
    (hright : start.peek ≠ .delimiter .right) (stack : Stack) (value : Float) :
    (operator value (.marker :: stack)).Matches start stack
      ⟨.error .mismatchedParentheses, start, []⟩ := by
  have hstep : (operator value (.marker :: stack)).step? start.options.maxDepth start.peek = none :=
    step?_eq_none_iff.2 (Place.step?_operator_eq_none hoperator (.inr hright))
  have hhalt : (operator value (.marker :: stack)).Matches start stack
      ⟨.error .mismatchedParentheses, start.skip 0, []⟩ := .of_halt hstep rfl
  rwa [Session.skip_zero] at hhalt

end Machine.Matches

/-! ## Routines -/

/-- The machine that does a routine's work on top of any stack with as many markers as there are
groups open.  What is on top of the stack must wait for the routine to end: its operators bind more
tightly. -/
def Routine.Matches : Routine → Session → Evaluation → Prop
  | expression level, start, evaluation => ∀ stack : Stack, stack.opened = start.depth.toNat →
      stack.Below level → (Machine.operand stack).Matches start stack evaluation
  | chain level lhs, start, evaluation => ∀ stack : Stack, stack.opened = start.depth.toNat →
      stack.Below level → (Machine.operator lhs stack).Matches start stack evaluation
  | operand level, start, evaluation => ∀ stack : Stack, stack.opened = start.depth.toNat →
      stack.Below (level + 1) → (Machine.operand stack).Matches start stack evaluation
  | primary, start, evaluation => ∀ stack : Stack, stack.opened = start.depth.toNat →
      (Machine.operand stack).Matches start stack evaluation
  | group, session, evaluation => ∀ start : Session, start.peek = .delimiter .left →
      start.advance = session → ∀ stack : Stack, stack.opened = start.depth.toNat →
        (Machine.operand stack).Matches start stack evaluation

/-- A group is read as the expression inside it, on top of its marker. -/
theorem Machine.Matches.of_body {start : Session} {stack : Stack} {evaluation : Evaluation}
    (hpeek : start.peek = .delimiter .left)
    (hdepth : start.advance.depth < start.advance.options.maxDepth)
    (hopened : stack.opened = start.depth.toNat)
    (h : (Routine.expression loosest).Matches start.advance.enter evaluation) :
    (operand stack).Matches start (.marker :: stack) evaluation.leave := by
  have hlt : stack.opened < start.options.maxDepth.toNat := by
    rw [hopened]
    exact UInt64.lt_iff_toNat_lt.1 hdepth
  have hstep : (operand stack).step? start.options.maxDepth start.peek =
      some (operand (.marker :: stack), []) := by
    rw [hpeek]
    exact if_pos hlt
  have hinner : Stack.opened (.marker :: stack) = start.advance.enter.depth.toNat := by
    rw [Session.toNat_depth_enter hdepth]
    exact congrArg Nat.succ hopened
  exact .of_step? hstep (h (.marker :: stack) hinner trivial).leave

theorem Answers.matches {routine : Routine} {session : Session} {evaluation : Evaluation}
    (h : Answers routine session evaluation) : routine.Matches session evaluation := by
  induction h with
  | @expression level session value rest folds outcome stop more _ _ ihOperand ihChain =>
      intro stack hopened hbelow
      have hoperand := ihOperand stack hopened (hbelow.of_le (Nat.le_succ level))
      exact hoperand.trans (ihChain stack (hopened.trans (by rw [hoperand.depth_eq])) hbelow)
  | @expressionError level session error stop folds _ ih =>
      intro stack hopened hbelow
      exact ih stack hopened (hbelow.of_le (Nat.le_succ level))
  | stop _ => exact fun stack _ _ => .value_self _ stack _
  | @fold level lhs session op rhs rest folds outcome stop more hop hoperand _ ihOperand ihChain =>
      intro stack hopened hbelow
      obtain ⟨hpeek, rfl⟩ := Session.operatorAt?_eq_some_iff.1 hop
      -- The operator waits on the stack while its right operand is read, and is applied behind it.
      have hmatches := ihOperand (.pending lhs op :: stack) hopened (Nat.lt_succ_self op.level)
      have happly := hmatches.apply (hoperand.follows rfl)
      have hchain := ihChain stack (hopened.trans (by rw [happly.depth_eq]; rfl)) hbelow
      simpa using Machine.Matches.push hpeek hbelow (happly.trans hchain)
  | @foldError level lhs session op error stop folds hop _ ih =>
      intro stack hopened hbelow
      obtain ⟨hpeek, rfl⟩ := Session.operatorAt?_eq_some_iff.1 hop
      exact .push hpeek hbelow (ih (.pending lhs op :: stack) hopened (Nat.lt_succ_self op.level))
  | tighter _ _ ih => exact ih
  | tightest _ _ ih => exact fun stack hopened _ => ih stack hopened
  | number hpeek => exact fun stack _ => .number hpeek stack
  | opening hpeek _ ih => exact ih _ hpeek rfl
  | unexpected hnumber hleft => exact fun stack _ => .unexpected hnumber hleft stack
  | tooDeep hdepth =>
      intro start hpeek hstart stack hopened
      subst hstart
      exact .tooDeep hpeek hdepth hopened
  | @closed _ value rest folds hdepth hclose _ ih =>
      intro start hpeek hstart stack hopened
      subst hstart
      have hright : rest.leave.peek = .delimiter .right := hclose
      have hbody := Machine.Matches.of_body hpeek hdepth hopened ih
      simpa using hbody.trans (.closed hright stack value)
  | @unclosed _ value rest folds hdepth hclose hbody ih =>
      intro start hpeek hstart stack hopened
      subst hstart
      have hoperator : ∀ op, rest.leave.peek ≠ .operator op := hbody.peek_ne_operator rfl
      have hright : rest.leave.peek ≠ .delimiter .right := hclose
      have hinside := Machine.Matches.of_body hpeek hdepth hopened ih
      simpa using hinside.trans (.unclosed hoperator hright stack value)
  | groupError hdepth _ ih =>
      intro start hpeek hstart stack hopened
      subst hstart
      exact Machine.Matches.of_body hpeek hdepth hopened ih

/-! ## Evaluations as runs of the machine -/

def Session.reading (session : Session) : Reading :=
  (Machine.operand []).run session.options.maxDepth session.remaining

theorem Session.evaluate_eq_reading (session : Session) (hdepth : session.depth = 0) :
    session.evaluate =
      ⟨session.reading.outcome, session.skip session.reading.passed, session.reading.folds⟩ := by
  have hanswers := answers_run (.expression loosest) session
  have hopened : Stack.opened [] = session.depth.toNat := by
    rw [hdepth]
    rfl
  have hmatches : (Machine.operand []).Matches session [] session.evaluate :=
    hanswers.matches [] hopened trivial
  have hfollow : ∀ value, session.evaluate.outcome = .ok value →
      ∀ op, session.evaluate.session.peek ≠ .operator op :=
    fun value => session.peek_evaluate_ne_operator
  cases hrun : session.evaluate with
  | mk outcome stop folds =>
      rw [hrun] at hmatches hfollow
      obtain ⟨passed, hstop, hreading⟩ := hmatches
      -- Behind a value the machine has nothing left to apply.
      have hresume : Evaluation.resume [] ⟨outcome, stop, folds⟩ = ⟨outcome, 0, []⟩ := by
        cases outcome with
        | error error => rfl
        | ok value =>
            have hstuck : (Machine.operator value []).step? stop.options.maxDepth stop.peek =
                none :=
              Machine.step?_eq_none_iff.2
                (Place.step?_operator_eq_none (hfollow value rfl) (.inl rfl))
            rw [Session.peek_eq_head?_remaining] at hstuck
            exact Machine.run_of_step?_eq_none hstuck
      rw [hresume] at hreading
      simp only [reading, hreading, Reading.after, Nat.add_zero, List.append_nil]
      rw [← hstop]

/-! ## Folds of a derivation -/

def Token.operator? : Token → Option Operator
  | .operator op => some op
  | _ => none

namespace Derivation

variable {category : Category}

theorem perm_map_op_folds (tree : Derivation category) :
    (tree.folds.map Fold.op).Perm (tree.tokens.filterMap Token.operator?) := by
  induction tree with
  | single _ _ ih => exact ih
  | binary lhs op hop rhs ihLhs ihRhs =>
      have htokens : (binary lhs op hop rhs).tokens.filterMap Token.operator? =
          lhs.tokens.filterMap Token.operator? ++ op :: rhs.tokens.filterMap Token.operator? := by
        simp [tokens, Token.operator?]
      have hoperands := (ihLhs.append ihRhs).append_right [op]
      have hroot := List.perm_append_singleton op (rhs.tokens.filterMap Token.operator?)
      rw [List.append_assoc (lhs.tokens.filterMap _)] at hoperands
      rw [htokens, folds, List.map_append, List.map_append]
      exact hoperands.trans (hroot.append_left _)
  | number value => exact .refl _
  | group body ih => simpa [folds, tokens, List.filterMap_cons, Token.operator?] using ih

/-- The operator at the root is applied last. -/
theorem value_of_getLast?_folds (tree : Derivation category) {fold : Fold}
    (h : tree.folds.getLast? = some fold) : fold.value = tree.value := by
  induction tree with
  | single _ _ ih => exact ih h
  | binary lhs op _ rhs _ _ =>
      rw [folds, List.getLast?_concat] at h
      rw [← Option.some.inj h]
      rfl
  | number value => contradiction
  | group body ih => exact ih h

end Derivation

theorem folds_evaluate_eq_reductions (session : Session) (hdepth : session.depth = 0) :
    session.evaluate.folds =
      ((Machine.operand []).run session.options.maxDepth session.remaining).folds ∧
    ∀ value, session.evaluate.outcome = .ok value →
      (∃ tree : Derivation .expression, session.Passes tree.tokens session.evaluate.session) ∧
      ∀ tree : Derivation .expression, session.Passes tree.tokens session.evaluate.session →
        tree.value = value ∧ session.evaluate.folds = tree.folds ∧
        (session.evaluate.folds.map Fold.op).Perm (tree.tokens.filterMap Token.operator?) ∧
        ∀ fold, session.evaluate.folds.getLast? = some fold → fold.value = value := by
  constructor
  · rw [session.evaluate_eq_reading hdepth]
    rfl
  · intro value hok
    obtain ⟨tree, htree⟩ := Session.exists_explains_of_evaluate hok
    refine ⟨⟨tree, htree.passes⟩, ?_⟩
    intro other hother
    have htokens : other.tokens ++ session.evaluate.session.remaining =
        tree.tokens ++ session.evaluate.session.remaining :=
      hother.remaining_eq.symm.trans htree.passes.remaining_eq
    have hsame : other = tree := Derivation.tokens_injective (List.append_cancel_right htokens)
    subst hsame
    rw [← htree.folds_eq]
    refine ⟨htree.value_eq, rfl, other.perm_map_op_folds, ?_⟩
    intro fold hlast
    rw [← htree.value_eq]
    exact other.value_of_getLast?_folds hlast

/-- In `1-2*3/(4+5 6` the product is applied when the quotient comes, and the sum in front of the
number that does not close its group; the quotient and the difference are never applied. -/
theorem folds_evaluate_unclosed_divisor :
    let session : Session :=
      { tokens := #[.number 1, .operator .sub, .number 2, .operator .mul, .number 3, .operator .div,
          .delimiter .left, .number 4, .operator .add, .number 5, .number 6, .eol]
        options := { maxDepth := 1 } }
    session.depth = 0 ∧ session.evaluate.folds = [⟨2, .mul, 3⟩, ⟨4, .add, 5⟩] :=
  ⟨rfl, (folds_evaluate_eq_reductions _ rfl).1⟩

end InfixArithmetic
