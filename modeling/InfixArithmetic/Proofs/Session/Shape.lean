import InfixArithmetic.Proofs.Session.History

/-!
# What the values of numbers decide

A number is passed wherever it is wanted, whatever its value, and no value is looked at again but by
an operator.  Two sessions have the same shape when they differ only in the values of their numbers;
their evaluations go through the same rules, whatever the two chains have come to so far.  Main
statement: `number_values_never_steer`, calls on two such sessions succeed or fail alike, with the
same error, and leave them at the same place.
-/

namespace InfixArithmetic

/-! ## Tokens -/

namespace Token

/-- A token without the value of its number. -/
def erase : Token → Token
  | number _ => number 0
  | token => token

variable {first second : Token}

theorem exists_number_of_erase_eq (h : first.erase = second.erase) {value : Float}
    (hfirst : first = number value) : ∃ value', second = number value' := by
  subst hfirst
  cases second with
  | number value' => exact ⟨value', rfl⟩
  | operator | delimiter | eol => contradiction

theorem eq_of_erase_eq (h : first.erase = second.erase) (hfirst : ∀ value, first ≠ number value) :
    first = second := by
  cases first with
  | number value => exact absurd rfl (hfirst value)
  | operator | delimiter | eol =>
      cases second with
      | number value => contradiction
      | operator | delimiter | eol => exact h

end Token

/-! ## Sessions -/

namespace Session

/-- The sessions differ at most in the values of their numbers. -/
structure SameShape (first second : Session) : Prop where
  tokens_eq : first.tokens.map Token.erase = second.tokens.map Token.erase
  position_eq : first.position = second.position
  depth_eq : first.depth = second.depth
  options_eq : first.options = second.options

namespace SameShape

variable {first second : Session}

theorem left_eq (h : first.SameShape second) : first.left = second.left := by
  have hsize := congrArg Array.size h.tokens_eq
  simp only [Array.size_map] at hsize
  rw [Cursor.left, Cursor.left, hsize, h.position_eq]

theorem advance (h : first.SameShape second) : first.advance.SameShape second.advance where
  tokens_eq := h.tokens_eq
  position_eq := by
    simp only [Session.advance, Cursor.advance, Cursor.skip, h.position_eq, h.left_eq]
  depth_eq := h.depth_eq
  options_eq := h.options_eq

theorem enter (h : first.SameShape second) : first.enter.SameShape second.enter where
  tokens_eq := h.tokens_eq
  position_eq := h.position_eq
  depth_eq := congrArg (· + 1) h.depth_eq
  options_eq := h.options_eq

theorem leave (h : first.SameShape second) : first.leave.SameShape second.leave where
  tokens_eq := h.tokens_eq
  position_eq := h.position_eq
  depth_eq := congrArg (· - 1) h.depth_eq
  options_eq := h.options_eq

theorem erase_peek_eq (h : first.SameShape second) : first.peek.erase = second.peek.erase := by
  have hpeek : ∀ session : Session,
      session.peek.erase = ((session.tokens.map Token.erase)[session.position]?).getD .eol := by
    intro session
    rw [Array.getElem?_map, Cursor.peek, Cursor.peek?]
    cases session.tokens[session.position]? <;> rfl
  rw [hpeek first, hpeek second, h.tokens_eq, h.position_eq]

theorem symm (h : first.SameShape second) : second.SameShape first :=
  ⟨h.tokens_eq.symm, h.position_eq.symm, h.depth_eq.symm, h.options_eq.symm⟩

theorem exists_peek_eq_number (h : first.SameShape second) {value : Float}
    (hfirst : first.peek = .number value) : ∃ value', second.peek = .number value' :=
  Token.exists_number_of_erase_eq h.erase_peek_eq hfirst

theorem peek_eq (h : first.SameShape second) (hfirst : ∀ value, first.peek ≠ .number value) :
    first.peek = second.peek :=
  Token.eq_of_erase_eq h.erase_peek_eq hfirst

theorem peek_eq_iff (h : first.SameShape second) {token : Token}
    (htoken : ∀ value, token ≠ .number value) : first.peek = token ↔ second.peek = token := by
  constructor
  · intro hfirst
    exact (h.peek_eq (hfirst ▸ htoken)).symm.trans hfirst
  · intro hsecond
    exact (h.symm.peek_eq (hsecond ▸ htoken)).symm.trans hsecond

theorem operatorAt?_eq (h : first.SameShape second) (level : Nat) :
    first.operatorAt? level = second.operatorAt? level := by
  cases hpeek : first.peek with
  | number value =>
      obtain ⟨value', hpeek'⟩ := h.exists_peek_eq_number hpeek
      simp [operatorAt?, hpeek, hpeek']
  | operator | delimiter | eol =>
      have hsame := h.peek_eq (by simp [hpeek])
      rw [operatorAt?, operatorAt?, hsame]

end SameShape

end Session

/-! ## Evaluations -/

/-- Both end with a value or with the same error, in sessions of the same shape and after folds of
the same operators. -/
inductive Evaluation.SameShape : Evaluation → Evaluation → Prop
  | ok {value value' : Float} {stop stop' : Session} {folds folds' : List Fold}
      (hstop : stop.SameShape stop') (hfolds : folds.map Fold.op = folds'.map Fold.op) :
      SameShape ⟨.ok value, stop, folds⟩ ⟨.ok value', stop', folds'⟩
  | error {error : EvalError} {stop stop' : Session} {folds folds' : List Fold}
      (hstop : stop.SameShape stop') (hfolds : folds.map Fold.op = folds'.map Fold.op) :
      SameShape ⟨.error error, stop, folds⟩ ⟨.error error, stop', folds'⟩

namespace Evaluation.SameShape

variable {first second : Evaluation}

theorem session (h : first.SameShape second) : first.session.SameShape second.session := by
  cases h with
  | ok hstop _ => exact hstop
  | error hstop _ => exact hstop

theorem after (h : first.SameShape second) (op : Operator) (lhs rhs lhs' rhs' : Float) :
    (first.after ⟨lhs, op, rhs⟩).SameShape (second.after ⟨lhs', op, rhs'⟩) := by
  cases h with
  | ok hstop hfolds => exact .ok hstop (congrArg (op :: ·) hfolds)
  | error hstop hfolds => exact .error hstop (congrArg (op :: ·) hfolds)

theorem prepend (h : first.SameShape second) {folds folds' : List Fold}
    (hfolds : folds.map Fold.op = folds'.map Fold.op) :
    SameShape ⟨first.outcome, first.session, folds ++ first.folds⟩
      ⟨second.outcome, second.session, folds' ++ second.folds⟩ := by
  cases h with
  | ok hstop hmore => exact .ok hstop (by rw [List.map_append, List.map_append, hfolds, hmore])
  | error hstop hmore => exact .error hstop (by rw [List.map_append, List.map_append, hfolds, hmore])

end Evaluation.SameShape

/-- The same routine, gone on from another value. -/
def Routine.withLhs (lhs : Float) : Routine → Routine
  | chain level _ => chain level lhs
  | routine => routine

theorem Answers.sameShape {routine : Routine} {session : Session} {evaluation : Evaluation}
    (h : Answers routine session evaluation) {other : Session} (hother : session.SameShape other)
    (lhs : Float) :
    ∃ evaluation', Answers (routine.withLhs lhs) other evaluation' ∧
      evaluation.SameShape evaluation' := by
  induction h generalizing other lhs with
  | expression _ _ ihOperand ihChain =>
      obtain ⟨_, hoperand, hfirst⟩ := ihOperand hother lhs
      cases hfirst with
      | @ok _ value' _ rest' _ folds' hrest hfolds =>
          obtain ⟨_, hchain, hsecond⟩ := ihChain hrest value'
          exact ⟨_, .expression hoperand hchain, hsecond.prepend hfolds⟩
  | expressionError _ ih =>
      obtain ⟨_, hoperand, hfirst⟩ := ih hother lhs
      cases hfirst with
      | error hstop hfolds => exact ⟨_, .expressionError hoperand, .error hstop hfolds⟩
  | stop h =>
      rw [hother.operatorAt?_eq] at h
      exact ⟨_, .stop h, .ok hother rfl⟩
  | @fold _ first _ op rhs _ _ _ _ _ h _ _ ihOperand ihChain =>
      rw [hother.operatorAt?_eq] at h
      obtain ⟨_, hoperand, hfirst⟩ := ihOperand hother.advance lhs
      cases hfirst with
      | @ok _ rhs' _ rest' _ folds' hrest hfolds =>
          obtain ⟨_, hchain, hsecond⟩ := ihChain hrest (op.apply lhs rhs')
          exact ⟨_, .fold h hoperand hchain, (hsecond.after op first rhs lhs rhs').prepend hfolds⟩
  | foldError h _ ih =>
      rw [hother.operatorAt?_eq] at h
      obtain ⟨_, hoperand, hfirst⟩ := ih hother.advance lhs
      cases hfirst with
      | error hstop hfolds => exact ⟨_, .foldError h hoperand, .error hstop hfolds⟩
  | tighter h _ ih =>
      obtain ⟨_, hanswers, hshape⟩ := ih hother lhs
      exact ⟨_, .tighter h hanswers, hshape⟩
  | tightest h _ ih =>
      obtain ⟨_, hanswers, hshape⟩ := ih hother lhs
      exact ⟨_, .tightest h hanswers, hshape⟩
  | number h =>
      obtain ⟨value', h'⟩ := hother.exists_peek_eq_number h
      exact ⟨_, .number h', .ok hother.advance rfl⟩
  | opening h _ ih =>
      obtain ⟨_, hanswers, hshape⟩ := ih hother.advance lhs
      exact ⟨_, .opening ((hother.peek_eq_iff (by simp)).1 h) hanswers, hshape⟩
  | unexpected hnumber hleft =>
      have hpeek := hother.peek_eq hnumber
      rw [hpeek] at hnumber hleft ⊢
      exact ⟨_, .unexpected hnumber hleft, .error hother.advance rfl⟩
  | tooDeep h =>
      rw [hother.options_eq] at h ⊢
      rw [hother.depth_eq] at h
      exact ⟨_, .tooDeep h, .error hother rfl⟩
  | closed h hclose _ ih =>
      rw [hother.options_eq, hother.depth_eq] at h
      obtain ⟨_, hbody, hshape⟩ := ih hother.enter lhs
      cases hshape with
      | ok hrest hfolds =>
          exact ⟨_, .closed h ((hrest.peek_eq_iff (by simp)).1 hclose) hbody,
            .ok hrest.leave.advance hfolds⟩
  | unclosed h hclose _ ih =>
      rw [hother.options_eq, hother.depth_eq] at h
      obtain ⟨_, hbody, hshape⟩ := ih hother.enter lhs
      cases hshape with
      | ok hrest hfolds =>
          rw [Ne, hrest.peek_eq_iff (by simp)] at hclose
          exact ⟨_, .unclosed h hclose hbody, .error hrest.leave hfolds⟩
  | groupError h _ ih =>
      rw [hother.options_eq, hother.depth_eq] at h
      obtain ⟨_, hbody, hshape⟩ := ih hother.enter lhs
      cases hshape with
      | error hstop hfolds => exact ⟨_, .groupError h hbody, .error hstop.leave hfolds⟩

/-! ## Tokens that errors name -/

/-- A token that an error names was not wanted where it stood, and a number always is. -/
def EvalError.NamesUnwanted : EvalError → Prop
  | unexpectedToken token => (∀ value, token ≠ .number value) ∧ token ≠ .delimiter .left
  | expectedNumber token => ∀ value, token ≠ .number value
  | scan _ | mismatchedParentheses | maxDepthExceeded _ => True

theorem Answers.namesUnwanted {routine : Routine} {session : Session} {evaluation : Evaluation}
    (h : Answers routine session evaluation) {error : EvalError}
    (herror : evaluation.outcome = .error error) : error.NamesUnwanted := by
  induction h generalizing error with
  | expression _ _ _ ihChain => exact ihChain herror
  | fold _ _ _ _ ihChain => exact ihChain herror
  | expressionError _ ih => exact ih herror
  | foldError _ _ ih => exact ih herror
  | tighter _ _ ih => exact ih herror
  | tightest _ _ ih => exact ih herror
  | opening _ _ ih => exact ih herror
  | groupError _ _ ih => exact ih herror
  | unexpected hnumber hleft =>
      cases herror
      exact ⟨hnumber, hleft⟩
  | tooDeep | unclosed =>
      cases herror
      trivial
  | stop | number | closed => contradiction

/-! ## Calls -/

namespace Session

variable {first second : Session}

theorem SameShape.serve (h : first.SameShape second) (request : Request) :
    (first.serve request).SameShape (second.serve request) := by
  cases request with
  | evaluate =>
      obtain ⟨_, hanswers, hshape⟩ := (answers_run (.expression Operator.loosest) first).sameShape h 0
      rw [← hanswers.run_eq] at hshape
      exact hshape
  | number =>
      rw [Session.serve, Session.serve, number_eq, number_eq]
      cases hpeek : first.peek with
      | number value =>
          obtain ⟨value', hpeek'⟩ := h.exists_peek_eq_number hpeek
          rw [hpeek']
          exact .ok h.advance rfl
      | operator | delimiter | eol =>
          rw [← h.peek_eq (by simp [hpeek]), hpeek]
          exact .error h.advance rfl

theorem namesUnwanted_serve (session : Session) (request : Request) {error : EvalError}
    (herror : (session.serve request).outcome = .error error) : error.NamesUnwanted := by
  cases request with
  | evaluate => exact (answers_run (.expression Operator.loosest) session).namesUnwanted herror
  | number =>
      rw [serve, number_eq] at herror
      cases hpeek : session.peek with
      | number value =>
          rw [hpeek] at herror
          contradiction
      | operator | delimiter | eol =>
          rw [hpeek] at herror
          cases herror
          simp [EvalError.NamesUnwanted]

theorem SameShape.serveAll (h : first.SameShape second) (requests : List Request) :
    (first.serveAll requests).SameShape (second.serveAll requests) := by
  induction requests generalizing first second with
  | nil => exact h
  | cons request requests ih => exact ih (h.serve request).session

end Session

theorem number_values_never_steer {first second : Session} (h : first.SameShape second)
    (history : List Request) (request : Request) :
    let served := (first.serveAll history).serve request
    let other := (second.serveAll history).serve request
    served.outcome.map (fun _ => ()) = other.outcome.map (fun _ => ()) ∧
    served.session.position = other.session.position ∧
    served.folds.map Fold.op = other.folds.map Fold.op ∧
    ∀ error, served.outcome = .error error → error.NamesUnwanted := by
  intro served other
  have hshape : served.SameShape other := (h.serveAll history).serve request
  have hunwanted : ∀ error, served.outcome = .error error → error.NamesUnwanted :=
    fun _ => (first.serveAll history).namesUnwanted_serve request
  generalize served = served, other = other at hshape hunwanted
  cases hshape with
  | ok hstop hfolds => exact ⟨rfl, hstop.position_eq, hfolds, hunwanted⟩
  | error hstop hfolds => exact ⟨rfl, hstop.position_eq, hfolds, hunwanted⟩

/-- A quotient by zero and one of two numbers that are none leave the same parenthesis in front, and
the next call stops at it alike. -/
theorem calls_alike_on_infinity_and_nan :
    let first : Session :=
      { tokens := #[.number 1, .operator .div, .number 0, .delimiter .right, .number 2, .eol] }
    let second : Session :=
      { tokens := #[.number (0 / 0), .operator .div, .number (1 / 0), .delimiter .right,
          .number (-0), .eol] }
    first.SameShape second ∧
      (first.serve .evaluate).outcome = .ok (1 / 0) ∧
      (∃ value, (second.serve .evaluate).outcome = .ok value) ∧
      ((first.serveAll [.evaluate]).serve .number).outcome =
        .error (.expectedNumber (.delimiter .right)) ∧
      ((second.serveAll [.evaluate]).serve .number).outcome =
        .error (.expectedNumber (.delimiter .right)) := by
  intro first second
  have hshape : first.SameShape second := ⟨by simp [first, second, Token.erase], rfl, rfl, rfl⟩
  have hfirst : first.serve .evaluate = ⟨.ok (1 / 0), first.skip 3, [⟨1, .div, 0⟩]⟩ :=
    first.evaluate_eq_reading rfl
  have hnext : (first.serveAll [.evaluate]).serve .number =
      ⟨.error (.expectedNumber (.delimiter .right)), first.skip 4, []⟩ := by
    rw [Session.serveAll, hfirst]
    rfl
  obtain ⟨hsame, -⟩ := number_values_never_steer hshape [] .evaluate
  obtain ⟨hsame', -⟩ := number_values_never_steer hshape [.evaluate] .number
  change Except.map _ (first.serve .evaluate).outcome = _ at hsame
  rw [hfirst] at hsame
  rw [hnext] at hsame'
  refine ⟨hshape, by rw [hfirst], ?_, by rw [hnext], ?_⟩
  · change Except.map _ _ = Except.map _ (second.serve .evaluate).outcome at hsame
    cases houtcome : (second.serve .evaluate).outcome with
    | ok value => exact ⟨value, rfl⟩
    | error error =>
        rw [houtcome] at hsame
        contradiction
  · cases houtcome : ((second.serveAll [.evaluate]).serve .number).outcome with
    | ok value =>
        rw [houtcome] at hsame'
        contradiction
    | error error =>
        rw [houtcome] at hsame'
        exact congrArg Except.error (Except.error.inj hsame').symm

end InfixArithmetic
