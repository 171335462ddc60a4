import InfixArithmetic.Proofs.OperatorStack.Simulation

/-!
# Sessions after other requests

A session may be asked for any number of expressions and numbers, and fail at any of them.  What it
was asked for before shows only in the tokens that are left: a group that was not closed takes no
room from the groups to come.  Main statement: `session_alike_fresh_after_history`, a session that
has served requests answers like a new one over the tokens it has left.
-/

namespace InfixArithmetic

/-! ## Requests -/

inductive Request where
  | evaluate
  | number
  deriving DecidableEq, Repr

/-- What can be seen of a served request. -/
structure Answer where
  outcome : Except EvalError Float
  remaining : List Token
  folds : List Fold

def Evaluation.answer (evaluation : Evaluation) : Answer :=
  ⟨evaluation.outcome, evaluation.session.remaining, evaluation.folds⟩

namespace Session

def serve (session : Session) : Request → Evaluation
  | .evaluate => session.evaluate
  | .number => session.number

def serveAll (session : Session) : List Request → Session
  | [] => session
  | request :: requests => (session.serve request).session.serveAll requests

def answers (session : Session) : List Request → List Answer
  | [] => []
  | request :: requests =>
      (session.serve request).answer :: (session.serve request).session.answers requests

/-- No sequence of requests tells the sessions apart. -/
structure Alike (first second : Session) : Prop where
  remaining_eq : first.remaining = second.remaining
  answers_eq : ∀ requests, first.answers requests = second.answers requests

theorem number_eq (session : Session) :
    session.number =
      ⟨match session.peek with
        | .number value => .ok value
        | token => .error (.expectedNumber token), session.skip 1, []⟩ := by
  unfold number
  split <;> simp_all [Evaluation.ok, Evaluation.error, advance_eq_skip]

/-- Serving a request passes tokens, or tries to behind the last one, and changes nothing else. -/
theorem exists_serve_session_eq {session : Session} (hdepth : session.depth = 0)
    (request : Request) :
    ∃ passed, 0 < passed ∧ (session.serve request).session = session.skip passed := by
  cases request with
  | evaluate =>
      rw [serve, session.evaluate_eq_reading hdepth]
      exact ⟨_, Machine.passed_run_operand_pos _ _ _, rfl⟩
  | number =>
      rw [serve, number_eq]
      exact ⟨1, Nat.one_pos, rfl⟩

theorem exists_serveAll_eq {session : Session} (hdepth : session.depth = 0)
    (requests : List Request) : ∃ passed, session.serveAll requests = session.skip passed := by
  induction requests generalizing session with
  | nil => exact ⟨0, session.skip_zero.symm⟩
  | cons request requests ih =>
      obtain ⟨passed, -, hpassed⟩ := exists_serve_session_eq hdepth request
      have hrest : (session.skip passed).depth = 0 := hdepth
      obtain ⟨more, hmore⟩ := ih hrest
      rw [serveAll, hpassed]
      exact ⟨passed + more, by rw [hmore, skip_skip]⟩

theorem serveAll_replicate_number (session : Session) (count : Nat) :
    session.serveAll (List.replicate count .number) = session.skip count := by
  induction count generalizing session with
  | zero => exact session.skip_zero.symm
  | succ count ih =>
      rw [List.replicate_succ, serveAll, serve, number_eq, ih, skip_skip, Nat.add_comm]

/-! ## Sessions with the same tokens left -/

/-- The sessions are between two requests and differ only in tokens they have passed. -/
structure Twins (first second : Session) : Prop where
  remaining_eq : first.remaining = second.remaining
  options_eq : first.options = second.options
  depth_eq_zero : first.depth = 0
  depth_eq_zero' : second.depth = 0

namespace Twins

variable {first second : Session}

theorem skip (h : first.Twins second) (count : Nat) :
    (first.skip count).Twins (second.skip count) where
  remaining_eq := by rw [remaining_skip, remaining_skip, h.remaining_eq]
  options_eq := h.options_eq
  depth_eq_zero := h.depth_eq_zero
  depth_eq_zero' := h.depth_eq_zero'

theorem reading_eq (h : first.Twins second) : first.reading = second.reading := by
  rw [reading, reading, h.remaining_eq, h.options_eq]

theorem peek_eq (h : first.Twins second) : first.peek = second.peek := by
  rw [peek_eq_head?_remaining, peek_eq_head?_remaining, h.remaining_eq]

theorem serve (h : first.Twins second) (request : Request) :
    (first.serve request).outcome = (second.serve request).outcome ∧
      (first.serve request).folds = (second.serve request).folds ∧
      (first.serve request).session.Twins (second.serve request).session := by
  cases request with
  | evaluate =>
      rw [Session.serve, Session.serve, first.evaluate_eq_reading h.depth_eq_zero,
        second.evaluate_eq_reading h.depth_eq_zero', h.reading_eq]
      exact ⟨rfl, rfl, h.skip _⟩
  | number =>
      rw [Session.serve, Session.serve, first.number_eq, second.number_eq, h.peek_eq]
      exact ⟨rfl, rfl, h.skip 1⟩

theorem answers_eq (h : first.Twins second) (requests : List Request) :
    first.answers requests = second.answers requests := by
  induction requests generalizing first second with
  | nil => rfl
  | cons request requests ih =>
      obtain ⟨houtcome, hfolds, hnext⟩ := h.serve request
      rw [answers, answers, ih hnext, Evaluation.answer, Evaluation.answer, houtcome, hfolds,
        hnext.remaining_eq]

theorem alike (h : first.Twins second) : first.Alike second :=
  ⟨h.remaining_eq, h.answers_eq⟩

end Twins

/-! ## New sessions -/

inductive Opened : Session → Prop
  | ofText {text : String} {options : Options} {session : Session}
      (h : Session.ofText text options = .ok session) : Opened session
  | ofCursor (cursor : Cursor) (options : Options) : Opened (Session.ofCursor cursor options)

theorem remaining_ofCursor (cursor : Cursor) (options : Options) :
    (ofCursor cursor options).remaining = cursor.remaining := by
  simp [ofCursor, Cursor.remaining]

theorem Opened.depth_eq_zero {session : Session} (h : Opened session) : session.depth = 0 := by
  cases h with
  | @ofText text options _ h =>
      unfold Session.ofText at h
      split at h
      · rw [← Except.ok.inj h]
        rfl
      · contradiction
  | ofCursor cursor options => rfl

end Session

/-! ## Histories of a cursor -/

inductive Move where
  | pull
  | next
  | nth (count : Nat)
  | take (count : Nat)
  | drain
  | reset
  deriving DecidableEq, Repr

namespace Cursor

def move (cursor : Cursor) : Move → Cursor
  | .pull => cursor.pull.2
  | .next => cursor.next.2
  | .nth count => (cursor.nth count).2
  | .take count => (cursor.take count).2
  | .drain => cursor.drain.2
  | .reset => cursor.reset

def moveAll (cursor : Cursor) (moves : List Move) : Cursor :=
  moves.foldl move cursor

theorem tokens_move (cursor : Cursor) (move : Move) :
    (cursor.move move).tokens = cursor.tokens := by
  cases move <;> rfl

theorem tokens_moveAll (cursor : Cursor) (moves : List Move) :
    (cursor.moveAll moves).tokens = cursor.tokens := by
  induction moves generalizing cursor with
  | nil => rfl
  | cons move moves ih => exact (ih (cursor.move move)).trans (cursor.tokens_move move)

theorem moveAll_replicate_pull (cursor : Cursor) (count : Nat) :
    cursor.moveAll (List.replicate count .pull) = cursor.skip count := by
  induction count generalizing cursor with
  | zero => simp [moveAll, skip]
  | succ count ih =>
      have hpull : cursor.move .pull = cursor.skip 1 := rfl
      rw [List.replicate_succ, moveAll, List.foldl_cons, hpull]
      rw [← moveAll, ih, skip_skip, Nat.add_comm]

/-- The tokens stay as they are, so the position is all that a history of moves leaves. -/
theorem moveAll_eq_of_position_eq {cursor : Cursor} {moves others : List Move}
    (h : (cursor.moveAll moves).position = (cursor.moveAll others).position) :
    cursor.moveAll moves = cursor.moveAll others := by
  have htokens := (cursor.tokens_moveAll moves).trans (cursor.tokens_moveAll others).symm
  cases hfirst : cursor.moveAll moves
  cases hsecond : cursor.moveAll others
  simp_all

end Cursor

/-! ## Histories do not matter -/

theorem session_alike_fresh_after_history :
    (∀ session : Session, session.Opened → ∀ history : List Request,
      (session.serveAll history).Alike
        { tokens := (session.serveAll history).remaining.toArray, options := session.options }) ∧
    ∀ (text : String) (cursor : Cursor), Cursor.ofText text = .ok cursor → ∀ count : Nat,
      ∃ session, Session.ofText text {} = .ok session ∧
        ∀ moves, (cursor.moveAll moves).position =
            (cursor.moveAll (List.replicate count .pull)).position →
          (Session.ofCursor (cursor.moveAll moves) {}).Alike
            (session.serveAll (List.replicate count .number)) := by
  constructor
  · intro session hopened history
    obtain ⟨passed, hpassed⟩ := Session.exists_serveAll_eq hopened.depth_eq_zero history
    rw [hpassed]
    apply Session.Twins.alike
    exact ⟨by simp [Cursor.remaining], rfl, hopened.depth_eq_zero, rfl⟩
  · intro text cursor hcursor count
    have hsession : Session.ofText text {} = .ok (Session.ofCursor cursor {}) := by
      rw [Session.ofText, hcursor]
    refine ⟨_, hsession, ?_⟩
    intro moves hposition
    rw [Cursor.moveAll_eq_of_position_eq hposition, Cursor.moveAll_replicate_pull,
      Session.serveAll_replicate_number]
    apply Session.Twins.alike
    refine ⟨?_, rfl, rfl, rfl⟩
    rw [Session.remaining_skip, Session.remaining_ofCursor, Session.remaining_ofCursor,
      Cursor.remaining_skip]

/-- Behind the two groups that `((1 2` leaves open there is room for two groups again. -/
theorem alike_fresh_after_unclosed_groups :
    let cursor : Cursor := { tokens := #[.delimiter .left, .delimiter .left, .number 1, .number 2,
      .eol] }
    let session := Session.ofCursor cursor { maxDepth := 2 }
    session.Opened ∧
      (session.serve .evaluate).outcome = .error .mismatchedParentheses ∧
      (session.serveAll [.evaluate]).Alike
        { tokens := #[.number 2, .eol], options := { maxDepth := 2 } } := by
  intro cursor session
  have hopened : session.Opened := .ofCursor cursor { maxDepth := 2 }
  have hserve : session.serve .evaluate = ⟨.error .mismatchedParentheses, session.skip 3, []⟩ :=
    session.evaluate_eq_reading rfl
  have halike := session_alike_fresh_after_history.1 session hopened [.evaluate]
  have hsession : session.serveAll [.evaluate] = session.skip 3 := by
    rw [Session.serveAll, hserve]
    rfl
  refine ⟨hopened, by rw [hserve], ?_⟩
  rw [hsession] at halike ⊢
  exact halike

end InfixArithmetic
