import InfixArithmetic.Proofs.Grammar.Evaluation
import Mathlib.Logic.ExistsUnique

/-!
# Viable prefixes and errors

Tokens are viable when some expression starts with them.  Evaluation goes on as long as the tokens
it has passed are viable and stops at the first one that is not wanted: `Session.GoesAlong` says at
which place it stops and what it answers there.  Main statement: `evaluate_of_isLongestViable`, the
longest viable prefix decides between a value and each of the errors, and where the cursor ends.
-/

namespace InfixArithmetic

open Operator (loosest tightest)

/-! ## Evaluation goes from place to place -/

namespace Session

def limit (session : Session) : Nat :=
  session.options.maxDepth.toNat

/-- What an evaluation from a place answers and where it stops: behind an expression, behind a token
that is no operand, or in front of one that does not close the innermost group. -/
inductive GoesAlong (start : Session) (origin : Place) :
    Except EvalError Float → Session → Prop
  | value {value passed stop} (hpasses : start.Passes passed stop)
      (hrun : origin.run? start.limit passed = some (.operator start.depth.toNat)) :
      GoesAlong start origin (.ok value) stop
  | operand {opened passed stop} (hpasses : start.Passes passed stop)
      (hrun : origin.run? start.limit passed = some (.operand opened))
      (hstuck : (Place.operand opened).step? start.limit stop.peek = none) :
      GoesAlong start origin
        (.error (if stop.peek = .delimiter .left then .maxDepthExceeded start.options.maxDepth
          else .unexpectedToken stop.peek)) stop.advance
  | operator {opened passed stop} (hpasses : start.Passes passed stop)
      (hrun : origin.run? start.limit passed = some (.operator opened))
      (hopened : start.depth.toNat < opened)
      (hstuck : (Place.operator opened).step? start.limit stop.peek = none) :
      GoesAlong start origin (.error .mismatchedParentheses) stop

namespace GoesAlong

variable {start mid stop : Session} {origin next : Place} {passed : List Token}
  {outcome : Except EvalError Float}

theorem of_passes (h : mid.GoesAlong next outcome stop) (hfirst : start.Passes passed mid)
    (hnext : origin.run? start.limit passed = some next) : start.GoesAlong origin outcome stop := by
  have hlimit : mid.limit = start.limit := by rw [limit, limit, hfirst.options_eq]
  cases h with
  | value hpasses hrun =>
      rw [hlimit, hfirst.depth_eq] at hrun
      exact .value (hfirst.append hpasses) ((Place.run?_append_of_eq_some hnext _).trans hrun)
  | operand hpasses hrun hstuck =>
      rw [hlimit] at hrun hstuck
      rw [hfirst.options_eq]
      exact .operand (hfirst.append hpasses) ((Place.run?_append_of_eq_some hnext _).trans hrun) hstuck
  | operator hpasses hrun hopened hstuck =>
      rw [hlimit] at hrun hstuck
      rw [hfirst.depth_eq] at hopened
      exact .operator (hfirst.append hpasses) ((Place.run?_append_of_eq_some hnext _).trans hrun)
        hopened hstuck

theorem trans {value : Float} (first : start.GoesAlong origin (.ok value) mid)
    (second : mid.GoesAlong (.operator mid.depth.toNat) outcome stop) :
    start.GoesAlong origin outcome stop := by
  cases first with
  | value hpasses hrun =>
      apply second.of_passes hpasses
      rw [hpasses.depth_eq]
      exact hrun

theorem of_advance {token : Token} (h : start.advance.GoesAlong next outcome stop)
    (hpeek : start.peek = token) (htoken : token ≠ .eol)
    (hstep : origin.step? start.limit token = some next) : start.GoesAlong origin outcome stop := by
  apply h.of_passes (Passes.advance_of_peek_eq hpeek htoken)
  rw [Place.run?_singleton, hstep]

theorem body {value : Float} (hpeek : start.peek = .delimiter .left)
    (hdepth : start.advance.depth < start.advance.options.maxDepth)
    (h : start.advance.enter.GoesAlong (.operand start.advance.enter.depth.toNat) (.ok value) stop) :
    ∃ passed, start.Passes passed stop.leave ∧
      (Place.operand start.depth.toNat).run? start.limit passed =
        some (.operator (start.depth.toNat + 1)) := by
  have hlimit : start.depth.toNat < start.limit := UInt64.lt_iff_toNat_lt.1 hdepth
  have hopen := Passes.advance_of_peek_eq hpeek (by simp)
  cases h with
  | value hpasses hrun =>
      rw [toNat_depth_enter hdepth] at hrun
      refine ⟨_, hopen.append hpasses.leave, ?_⟩
      exact (Place.run?_cons (Place.step?_left_of_lt hlimit) _).trans hrun

theorem leave {error : EvalError} (h : start.enter.GoesAlong origin (.error error) stop)
    (hdepth : start.depth < start.options.maxDepth) :
    start.GoesAlong origin (.error error) stop.leave := by
  have henter := toNat_depth_enter hdepth
  cases h with
  | operand hpasses hrun hstuck => exact .operand hpasses.leave hrun hstuck
  | operator hpasses hrun hopened hstuck =>
      exact .operator hpasses.leave hrun (by omega) hstuck

end GoesAlong

end Session

def Routine.GoesAlong : Routine → Session → Except EvalError Float → Session → Prop
  | expression _, start, outcome, stop | operand _, start, outcome, stop
  | primary, start, outcome, stop => start.GoesAlong (.operand start.depth.toNat) outcome stop
  | chain _ _, start, outcome, stop => start.GoesAlong (.operator start.depth.toNat) outcome stop
  | group, session, outcome, stop => ∀ start : Session, start.peek = .delimiter .left →
      start.advance = session → start.GoesAlong (.operand start.depth.toNat) outcome stop

theorem Answers.goesAlong {routine : Routine} {session : Session} {evaluation : Evaluation}
    (h : Answers routine session evaluation) :
    routine.GoesAlong session evaluation.outcome evaluation.session := by
  induction h with
  | expression _ _ ihOperand ihChain => exact ihOperand.trans ihChain
  | expressionError _ ih => exact ih
  | stop _ => exact .value (.nil _) rfl
  | fold hop _ _ ihOperand ihChain =>
      have hpeek := Session.peek_eq_of_operatorAt? hop
      exact (ihOperand.trans ihChain).of_advance hpeek (by simp) rfl
  | foldError hop _ ih =>
      have hpeek := Session.peek_eq_of_operatorAt? hop
      exact ih.of_advance hpeek (by simp) rfl
  | tighter _ _ ih => exact ih
  | tightest _ _ ih => exact ih
  | number hpeek => exact .value (Session.Passes.advance_of_peek_eq hpeek (by simp)) rfl
  | opening hpeek _ ih => exact ih _ hpeek rfl
  | @unexpected session hnumber hleft =>
      have hstuck : (Place.operand session.depth.toNat).step? session.limit session.peek = none :=
        Place.step?_operand_eq_none hnumber hleft
      have hstop := Session.GoesAlong.operand (.nil session) rfl hstuck
      rw [if_neg hleft] at hstop
      exact hstop
  | tooDeep hdepth =>
      intro start hpeek hstart
      subst hstart
      have hstuck : (Place.operand start.depth.toNat).step? start.limit start.peek = none := by
        rw [hpeek]
        exact Place.step?_left_of_le (UInt64.le_iff_toNat_le.1 hdepth)
      have hstop := Session.GoesAlong.operand (.nil start) rfl hstuck
      rw [if_pos hpeek] at hstop
      exact hstop
  | @closed _ _ rest _ hdepth hclose _ ih =>
      intro start hpeek hstart
      subst hstart
      obtain ⟨passed, hpasses, hrun⟩ := ih.body hpeek hdepth
      have hlast : rest.leave.Passes [.delimiter .right] rest.leave.advance :=
        Session.Passes.advance_of_peek_eq hclose (by simp)
      exact .value (hpasses.append hlast) (Place.run?_append_of_eq_some hrun _)
  | @unclosed _ _ rest _ hdepth hclose hbody ih =>
      intro start hpeek hstart
      subst hstart
      obtain ⟨passed, hpasses, hrun⟩ := ih.body hpeek hdepth
      have hoperator : ∀ op, rest.leave.peek ≠ .operator op := hbody.peek_ne_operator rfl
      have hright : rest.leave.peek ≠ .delimiter .right := hclose
      exact .operator hpasses hrun (Nat.lt_succ_self _)
        (Place.step?_operator_eq_none hoperator (.inr hright))
  | groupError hdepth _ ih =>
      intro start hpeek hstart
      subst hstart
      have henter := Session.toNat_depth_enter hdepth
      apply (ih.leave hdepth).of_advance hpeek (by simp)
      rw [henter]
      exact Place.step?_left_of_lt (UInt64.lt_iff_toNat_lt.1 hdepth)

/-- An evaluation stops where the next token is not wanted, and the place there decides what it
answers. -/
theorem Session.exists_stop_evaluate (session : Session) (hdepth : session.depth = 0) :
    ∃ passed place stop, session.Passes passed stop ∧
      (Place.operand 0).run? session.limit passed = some place ∧
      place.step? session.limit stop.peek = none ∧
      match place with
      | .operator 0 => (∃ value, session.evaluate.outcome = .ok value) ∧
          session.evaluate.session = stop
      | .operator _ => session.evaluate.outcome = .error .mismatchedParentheses ∧
          session.evaluate.session = stop
      | .operand _ => session.evaluate.outcome =
            .error (if stop.peek = .delimiter .left then .maxDepthExceeded session.options.maxDepth
              else .unexpectedToken stop.peek) ∧
          session.evaluate.session = stop.advance := by
  have hanswers := answers_run (.expression loosest) session
  have halong : session.GoesAlong (.operand session.depth.toNat) session.evaluate.outcome
      session.evaluate.session := hanswers.goesAlong
  have hfollow : ∀ value, session.evaluate.outcome = .ok value →
      ∀ op, session.evaluate.session.peek ≠ .operator op :=
    fun value => session.peek_evaluate_ne_operator
  have hzero : session.depth.toNat = 0 := by
    rw [hdepth]
    rfl
  rw [hzero] at halong
  generalize session.evaluate.outcome = outcome, session.evaluate.session = last
    at halong hfollow ⊢
  cases halong with
  | @value value passed _ hpasses hrun =>
      rw [hzero] at hrun
      refine ⟨passed, _, _, hpasses, hrun, ?_, ⟨value, rfl⟩, rfl⟩
      exact Place.step?_operator_eq_none (hfollow value rfl) (.inl rfl)
  | operand hpasses hrun hstuck => exact ⟨_, _, _, hpasses, hrun, hstuck, rfl, rfl⟩
  | @operator opened passed _ hpasses hrun hopened hstuck =>
      refine ⟨passed, _, _, hpasses, hrun, hstuck, ?_⟩
      cases opened with
      | zero => contradiction
      | succ opened => exact ⟨rfl, rfl⟩

/-! ## Places tell viable tokens -/

/-- Some expression whose groups are nested at most `limit` deep starts with the tokens. -/
def Viable (limit : Nat) (tokens : List Token) : Prop :=
  ∃ (tree : Derivation .expression) (rest : List Token),
    tree.nesting ≤ limit ∧ tree.tokens = tokens ++ rest

def Complete (limit : Nat) (tokens : List Token) : Prop :=
  ∃ tree : Derivation .expression, tree.nesting ≤ limit ∧ tree.tokens = tokens

namespace Place

/-- Tokens that make an expression complete. -/
def closing : Place → List Token
  | operand opened => .number 0 :: List.replicate opened (.delimiter .right)
  | operator opened => List.replicate opened (.delimiter .right)

theorem run?_closing (limit : Nat) (place : Place) :
    place.run? limit place.closing = some (.operator 0) := by
  have hright : ∀ opened, (operator opened).run? limit (List.replicate opened (.delimiter .right)) =
      some (.operator 0) := by
    intro opened
    induction opened with
    | zero => rfl
    | succ opened ih =>
        rw [List.replicate_succ, run?_cons rfl]
        exact ih
  cases place with
  | operand opened =>
      rw [closing, run?_cons rfl]
      exact hright opened
  | operator opened => exact hright opened

theorem run?_eq_none_of_stuck {limit : Nat} {place : Place} {rest : List Token} (hne : rest ≠ [])
    (hstuck : place.step? limit (rest.head?.getD .eol) = none) : place.run? limit rest = none := by
  cases rest with
  | nil => contradiction
  | cons token rest =>
      have hstep : place.step? limit token = none := hstuck
      rw [run?, hstep, Option.bind_none]

end Place

theorem complete_iff {limit : UInt64} {tokens : List Token} :
    Complete limit.toNat tokens ↔
      (Place.operand 0).run? limit.toNat tokens = some (.operator 0) := by
  constructor
  · rintro ⟨tree, hnesting, rfl⟩
    exact tree.run?_tokens (by omega)
  · intro hrun
    -- The session that evaluates the tokens finds the derivation.
    let session : Session := { tokens := tokens.toArray, options := { maxDepth := limit } }
    have htokens : session.remaining = tokens := by simp [session, Cursor.remaining]
    have hstays : ∀ {passed : List Token} {stop : Session} {place : Place},
        session.Passes passed stop → (Place.operand 0).run? limit.toNat passed = some place →
        place.step? limit.toNat stop.peek = none → place = .operator 0 ∧ stop.remaining = [] := by
      intro passed stop place hpasses hpassed hstuck
      rw [Session.peek_eq_head?_remaining] at hstuck
      rw [← htokens, hpasses.remaining_eq, Place.run?_append_of_eq_some hpassed] at hrun
      by_cases hrest : stop.remaining = []
      · rw [hrest, Place.run?_nil] at hrun
        exact ⟨Option.some.inj hrun, hrest⟩
      · rw [Place.run?_eq_none_of_stuck hrest hstuck] at hrun
        contradiction
    obtain ⟨passed, place, stop, hpasses, hpassed, hstuck, hanswer⟩ :=
      session.exists_stop_evaluate rfl
    obtain ⟨rfl, hrest⟩ := hstays hpasses hpassed hstuck
    obtain ⟨⟨value, hok⟩, hstop⟩ := hanswer
    obtain ⟨tree, htree⟩ := Session.exists_explains_of_evaluate hok
    refine ⟨tree, htree.nesting_le, ?_⟩
    rw [← htokens, htree.passes.remaining_eq, hstop, hrest, List.append_nil]

theorem viable_iff {limit : UInt64} {tokens : List Token} :
    Viable limit.toNat tokens ↔
      ∃ place, (Place.operand 0).run? limit.toNat tokens = some place := by
  constructor
  · rintro ⟨tree, rest, hnesting, htokens⟩
    have hrun : (Place.operand 0).run? limit.toNat tree.tokens = some (.operator 0) :=
      tree.run?_tokens (by omega)
    rw [htokens, Place.run?_append] at hrun
    obtain ⟨place, hplace, -⟩ := Option.bind_eq_some_iff.1 hrun
    exact ⟨place, hplace⟩
  · rintro ⟨place, hplace⟩
    have hrun : (Place.operand 0).run? limit.toNat (tokens ++ place.closing) =
        some (.operator 0) := by
      rw [Place.run?_append_of_eq_some hplace]
      exact place.run?_closing limit.toNat
    obtain ⟨tree, hnesting, htokens⟩ := complete_iff.2 hrun
    exact ⟨tree, place.closing, hnesting, htokens⟩

/-! ## The longest viable prefix -/

structure IsLongestViable (limit : Nat) (tokens initial : List Token) : Prop where
  starts : initial <+: tokens
  viable : Viable limit initial
  longest : ∀ other, other <+: tokens → Viable limit other → other.length ≤ initial.length

theorem IsLongestViable.unique {limit : Nat} {tokens first second : List Token}
    (hfirst : IsLongestViable limit tokens first)
    (hsecond : IsLongestViable limit tokens second) : first = second := by
  have hle := hsecond.longest first hfirst.starts hfirst.viable
  have hge := hfirst.longest second hsecond.starts hsecond.viable
  have hstarts := List.prefix_of_prefix_length_le hfirst.starts hsecond.starts hle
  exact hstarts.eq_of_length (Nat.le_antisymm hle hge)

theorem isLongestViable_of_stuck {limit : UInt64} {passed rest : List Token} {place : Place}
    (hrun : (Place.operand 0).run? limit.toNat passed = some place)
    (hstuck : place.step? limit.toNat (rest.head?.getD .eol) = none) :
    IsLongestViable limit.toNat (passed ++ rest) passed where
  starts := List.prefix_append passed rest
  viable := viable_iff.2 ⟨place, hrun⟩
  longest := by
    rintro other ⟨tail, htail⟩ hviable
    obtain ⟨next, hnext⟩ := viable_iff.1 hviable
    rcases List.append_eq_append_iff.1 htail with ⟨more, rfl, -⟩ | ⟨more, rfl, rfl⟩
    · simp
    · cases more with
      | nil => simp
      | cons token more =>
          -- The run is stuck at the first token of the longer prefix.
          have hnone : place.run? limit.toNat (token :: more) = none :=
            Place.run?_eq_none_of_stuck (by simp) hstuck
          rw [Place.run?_append_of_eq_some hrun, hnone] at hnext
          contradiction

/-- Nothing, or tokens whose last one is an operator or an opening parenthesis. -/
def EndsOpen (tokens : List Token) : Prop :=
  tokens = [] ∨ (∃ op, tokens.getLast? = some (.operator op)) ∨
    tokens.getLast? = some (.delimiter .left)

def EndsClosed (tokens : List Token) : Prop :=
  (∃ value, tokens.getLast? = some (.number value)) ∨ tokens.getLast? = some (.delimiter .right)

theorem Place.exists_step_of_run?_append {limit : Nat} {origin place : Place}
    {before : List Token} {last : Token}
    (hrun : origin.run? limit (before ++ [last]) = some place) :
    ∃ mid, Step limit mid last place := by
  rw [run?_append] at hrun
  obtain ⟨mid, -, hlast⟩ := Option.bind_eq_some_iff.1 hrun
  rw [run?_singleton, step?_eq_some_iff] at hlast
  exact ⟨mid, hlast⟩

theorem Place.exists_operand_of_endsOpen {limit : Nat} {tokens : List Token} {place : Place}
    (hrun : (operand 0).run? limit tokens = some place) (h : EndsOpen tokens) :
    ∃ opened, place = operand opened := by
  rcases tokens.eq_nil_or_concat with rfl | ⟨before, last, rfl⟩
  · exact ⟨0, (Option.some.inj hrun).symm⟩
  · rw [List.concat_eq_append] at hrun h
    obtain ⟨mid, hstep⟩ := exists_step_of_run?_append hrun
    have hends : (∃ op, last = .operator op) ∨ last = .delimiter .left := by
      simpa [EndsOpen] using h
    cases hstep with
    | left => exact ⟨_, rfl⟩
    | operator => exact ⟨_, rfl⟩
    | number | right => simp at hends

theorem Place.exists_operator_of_endsClosed {limit : Nat} {tokens : List Token} {place : Place}
    (hrun : (operand 0).run? limit tokens = some place) (h : EndsClosed tokens) :
    ∃ opened, place = operator opened := by
  rcases tokens.eq_nil_or_concat with rfl | ⟨before, last, rfl⟩
  · simp [EndsClosed] at h
  · rw [List.concat_eq_append] at hrun h
    obtain ⟨mid, hstep⟩ := exists_step_of_run?_append hrun
    have hends : (∃ value, last = .number value) ∨ last = .delimiter .right := by
      simpa [EndsClosed] using h
    cases hstep with
    | number => exact ⟨_, rfl⟩
    | right => exact ⟨_, rfl⟩
    | left | operator => simp at hends

theorem evaluate_of_isLongestViable (session : Session) (hdepth : session.depth = 0) :
    (∃! initial, IsLongestViable session.limit session.remaining initial) ∧
    ∀ initial, IsLongestViable session.limit session.remaining initial →
      let next := (session.skip initial.length).peek
      ((∃ error, session.evaluate.outcome = .error error) ↔ ¬ Complete session.limit initial) ∧
      (EndsOpen initial →
        session.evaluate.outcome =
          .error (if next = .delimiter .left then .maxDepthExceeded session.options.maxDepth
            else .unexpectedToken next) ∧
        session.evaluate.session = session.skip (initial.length + 1)) ∧
      (EndsClosed initial → ¬ Complete session.limit initial →
        session.evaluate.outcome = .error .mismatchedParentheses ∧
        session.evaluate.session = session.skip initial.length) := by
  obtain ⟨passed, place, stop, hpasses, hrun, hstuck, hanswer⟩ :=
    session.exists_stop_evaluate hdepth
  have hlongest : IsLongestViable session.limit session.remaining passed := by
    rw [Session.peek_eq_head?_remaining] at hstuck
    rw [hpasses.remaining_eq]
    exact isLongestViable_of_stuck hrun hstuck
  refine ⟨⟨passed, hlongest, fun other hother => hother.unique hlongest⟩, ?_⟩
  intro initial hinitial
  obtain rfl := hinitial.unique hlongest
  have hcomplete : Complete session.limit initial ↔ place = .operator 0 := by
    rw [Session.limit, complete_iff]
    rw [Session.limit] at hrun
    simp [hrun]
  obtain rfl := hpasses.stop_eq
  refine ⟨?_, ?_, ?_⟩
  · rw [hcomplete]
    match place with
    | .operator 0 =>
        obtain ⟨⟨value, hvalue⟩, -⟩ := hanswer
        simp [hvalue]
    | .operator (opened + 1) => simp [hanswer.1]
    | .operand opened => simp [hanswer.1]
  · intro hends
    obtain ⟨opened, rfl⟩ := Place.exists_operand_of_endsOpen hrun hends
    obtain ⟨houtcome, hsession⟩ := hanswer
    refine ⟨houtcome, hsession.trans ?_⟩
    rw [Session.advance_eq_skip, Session.skip_skip]
  · intro hends hincomplete
    obtain ⟨opened, rfl⟩ := Place.exists_operator_of_endsClosed hrun hends
    cases opened with
    | zero => exact absurd (hcomplete.2 rfl) hincomplete
    | succ opened => exact hanswer

/-- In `(1 + 2 3` the group wants to go on or to be closed where the last number stands. -/
theorem evaluate_unclosed_sum :
    let session : Session :=
      { tokens := #[.delimiter .left, .number 1, .operator .add, .number 2, .number 3, .eol]
        options := { maxDepth := 1 } }
    session.depth = 0 ∧ session.evaluate.outcome = .error .mismatchedParentheses ∧
      session.evaluate.session = session.skip 4 := by
  intro session
  let initial : List Token := [.delimiter .left, .number 1, .operator .add, .number 2]
  let rest : List Token := [.number 3, .eol]
  have hrun : (Place.operand 0).run? (1 : UInt64).toNat initial = some (.operator 1) := rfl
  have hstuck : (Place.operator 1).step? (1 : UInt64).toNat (rest.head?.getD .eol) = none := rfl
  have hincomplete : ¬ Complete session.limit initial := by
    intro hcomplete
    have hclosed := complete_iff.1 hcomplete
    rw [hrun] at hclosed
    contradiction
  obtain ⟨-, -, hclosed⟩ := (evaluate_of_isLongestViable session rfl).2 initial
    (isLongestViable_of_stuck hrun hstuck)
  exact ⟨rfl, hclosed (.inl ⟨2, rfl⟩) hincomplete⟩

end InfixArithmetic
