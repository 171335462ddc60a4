import InfixArithmetic.Proofs.Session.Passing
import InfixArithmetic.Proofs.Session.Rules
import Mathlib.Logic.Relation

/-!
# Points of a call

Between the call of a routine and its answer lie the points where a token was passed, a group was
entered or left, or another routine was called or gave its answer.  `Point.step?` goes from one such
point to the next and keeps what the waiting routines still have to do in a list of frames;
`Answers.reaches` says that it comes to the answer of every routine it calls.  Main statement:
`points_stay_in_bounds`, at no point does the position or the depth leave its range.
-/

namespace InfixArithmetic

open Operator (loosest tightest)

/-! ## Points -/

/-- A routine that waits for the answer of another; a routine that only hands on that answer does
not wait. -/
inductive Frame where
  | first (level : Nat)
  | next (level : Nat) (lhs : Float) (op : Operator)
  | group
  deriving DecidableEq, Repr

inductive Control where
  | call (routine : Routine)
  /-- A group was left and looks for its closing parenthesis. -/
  | closing (outcome : Except EvalError Float)
  | answer (outcome : Except EvalError Float)

structure Point where
  control : Control
  session : Session
  frames : List Frame := []
  folds : List Fold := []

namespace Point

def start (routine : Routine) (session : Session) : Point :=
  { control := .call routine, session }

/-- The routine called at the point has answered, and the same routines wait. -/
def answered (point : Point) (evaluation : Evaluation) : Point :=
  { point with
    control := .answer evaluation.outcome
    session := evaluation.session
    folds := point.folds ++ evaluation.folds }

def stop (evaluation : Evaluation) : Point :=
  { control := .answer evaluation.outcome
    session := evaluation.session
    folds := evaluation.folds }

/-- How many calls of `Routine.group` have not been answered. -/
def groupCalls (point : Point) : Nat :=
  point.frames.count .group +
    match point.control with
    | .call .group | .closing _ => 1
    | _ => 0

/-! ## Steps -/

def call (point : Point) : Routine → Point
  | .expression level =>
      { point with control := .call (.operand level), frames := .first level :: point.frames }
  | .chain level lhs =>
      match point.session.operatorAt? level with
      | none => { point with control := .answer (.ok lhs) }
      | some op =>
          { point with
            control := .call (.operand level)
            session := point.session.advance
            frames := .next level lhs op :: point.frames }
  | .operand level =>
      if level < tightest then { point with control := .call (.expression (level + 1)) }
      else { point with control := .call .primary }
  | .primary =>
      match point.session.peek with
      | .number value =>
          { point with control := .answer (.ok value), session := point.session.advance }
      | .delimiter .left => { point with control := .call .group, session := point.session.advance }
      | token =>
          { point with
            control := .answer (.error (.unexpectedToken token))
            session := point.session.advance }
  | .group =>
      if point.session.options.maxDepth ≤ point.session.depth then
        { point with
          control := .answer (.error (.maxDepthExceeded point.session.options.maxDepth)) }
      else
        { point with
          control := .call (.expression loosest)
          session := point.session.enter
          frames := .group :: point.frames }

def close (point : Point) : Except EvalError Float → Point
  | .ok value =>
      if point.session.peek = .delimiter .right then
        { point with control := .answer (.ok value), session := point.session.advance }
      else { point with control := .answer (.error .mismatchedParentheses) }
  | .error error => { point with control := .answer (.error error) }

/-- A waiting routine goes on with the answer it waited for.  A group is left whatever the answer
is, and any other routine hands on a failure. -/
def resume (point : Point) (outcome : Except EvalError Float) : Frame → Point
  | .group => { point with control := .closing outcome, session := point.session.leave }
  | .first level =>
      match outcome with
      | .ok value => { point with control := .call (.chain level value) }
      | .error error => { point with control := .answer (.error error) }
  | .next level lhs op =>
      match outcome with
      | .ok rhs =>
          { point with
            control := .call (.chain level (op.apply lhs rhs))
            folds := point.folds ++ [⟨lhs, op, rhs⟩] }
      | .error error => { point with control := .answer (.error error) }

/-- There is no step from an answer that no routine waits for. -/
def step? (point : Point) : Option Point :=
  match point.control, point.frames with
  | .call routine, _ => some (point.call routine)
  | .closing outcome, _ => some (point.close outcome)
  | .answer outcome, frame :: frames => some ({ point with frames }.resume outcome frame)
  | .answer _, [] => none

/-- In any number of steps. -/
def Reaches : Point → Point → Prop :=
  Relation.ReflTransGen fun point next => point.step? = some next

theorem step?_stop (evaluation : Evaluation) : (stop evaluation).step? = none := rfl

namespace Reaches

variable {point next last : Point}

theorem refl (point : Point) : point.Reaches point :=
  Relation.ReflTransGen.refl

theorem trans (hnext : point.Reaches next) (hlast : next.Reaches last) : point.Reaches last :=
  Relation.ReflTransGen.trans hnext hlast

theorem of_step? (h : point.step? = some next) (hlast : next.Reaches last) : point.Reaches last :=
  .head h hlast

theorem single (h : point.step? = some next) : point.Reaches next :=
  of_step? h (refl next)

/-- An answer at once adds no folds. -/
theorem answer {outcome : Except EvalError Float} {session : Session} {frames : List Frame}
    {folds : List Fold} (h : point.step? = some ⟨.answer outcome, session, frames, folds⟩) :
    point.Reaches ⟨.answer outcome, session, frames, folds ++ []⟩ := by
  rw [List.append_nil]
  exact single h

/-- A group that was entered is left when its expression has an answer. -/
theorem closing {session rest : Session} {frames : List Frame} {folds more : List Fold}
    {outcome : Except EvalError Float} (h : session.depth < session.options.maxDepth)
    (hbody : Reaches ⟨.call (.expression loosest), session.enter, .group :: frames, folds⟩
      ⟨.answer outcome, rest, .group :: frames, more⟩) :
    Reaches ⟨.call .group, session, frames, folds⟩ ⟨.closing outcome, rest.leave, frames, more⟩ :=
  of_step? (by simp only [step?, call, if_neg (UInt64.not_le.2 h)]) (hbody.trans (single rfl))

/-- The steps lead one way, so from any point on the way to the last one they go on to it. -/
theorem of_stop {first : Point} {evaluation : Evaluation}
    (hstop : first.Reaches (stop evaluation)) (hpoint : first.Reaches point) :
    point.Reaches (stop evaluation) := by
  have hunique : Relator.RightUnique fun point next : Point => point.step? = some next := by
    intro point next other hnext hother
    exact Option.some.inj (hnext.symm.trans hother)
  rcases Relation.ReflTransGen.total_of_right_unique hunique hstop hpoint with hback | hforward
  · cases hback using Relation.ReflTransGen.head_induction_on with
    | refl => exact refl _
    | head hstep _ =>
        rw [step?_stop] at hstep
        contradiction
  · exact hforward

end Reaches

end Point

/-! ## The steps lead to what the routines answer -/

theorem Answers.reaches {routine : Routine} {session : Session} {evaluation : Evaluation}
    (h : Answers routine session evaluation) (frames : List Frame) (folds : List Fold) :
    Point.Reaches ⟨.call routine, session, frames, folds⟩
      ⟨.answer evaluation.outcome, evaluation.session, frames, folds ++ evaluation.folds⟩ := by
  induction h generalizing frames folds with
  | @expression level _ _ _ passed _ _ _ _ _ ihOperand ihChain =>
      have hoperand := ihOperand (.first level :: frames) folds
      have hchain := ihChain frames (folds ++ passed)
      rw [List.append_assoc] at hchain
      exact .of_step? rfl (hoperand.trans (.of_step? rfl hchain))
  | @expressionError level _ _ _ _ _ ih =>
      have hoperand := ih (.first level :: frames) folds
      exact .of_step? rfl (hoperand.trans (.single rfl))
  | stop h => exact .answer (by simp only [Point.step?, Point.call, h])
  | @fold level lhs _ op rhs _ passed _ _ _ h _ _ ihOperand ihChain =>
      have hoperand := ihOperand (.next level lhs op :: frames) folds
      have hchain := ihChain frames (folds ++ passed ++ [⟨lhs, op, rhs⟩])
      rw [List.append_assoc (folds ++ passed), List.append_assoc folds passed ([_] ++ _)] at hchain
      exact .of_step? (by simp only [Point.step?, Point.call, h])
        (hoperand.trans (.of_step? rfl hchain))
  | @foldError level lhs _ op _ _ _ h _ ih =>
      have hoperand := ih (.next level lhs op :: frames) folds
      exact .of_step? (by simp only [Point.step?, Point.call, h])
        (hoperand.trans (.single rfl))
  | tighter h _ ih =>
      exact .of_step? (by simp only [Point.step?, Point.call, if_pos h]) (ih frames folds)
  | tightest h _ ih =>
      exact .of_step? (by simp only [Point.step?, Point.call, if_neg (Nat.not_lt.2 h)])
        (ih frames folds)
  | number h => exact .answer (by simp only [Point.step?, Point.call, h])
  | opening h _ ih =>
      exact .of_step? (by simp only [Point.step?, Point.call, h]) (ih frames folds)
  | unexpected hnumber hleft => exact .answer (by simp only [Point.step?, Point.call])
  | tooDeep h => exact .answer (by simp only [Point.step?, Point.call, if_pos h])
  | @closed _ _ rest _ h hclose _ ih =>
      have hpeek : rest.leave.peek = .delimiter .right := hclose
      exact (Point.Reaches.closing h (ih (.group :: frames) folds)).trans
        (.single (by simp only [Point.step?, Point.close, if_pos hpeek]))
  | @unclosed _ _ rest _ h hclose _ ih =>
      have hpeek : rest.leave.peek ≠ .delimiter .right := hclose
      exact (Point.Reaches.closing h (ih (.group :: frames) folds)).trans
        (.single (by simp only [Point.step?, Point.close, if_neg hpeek]))
  | groupError h _ ih =>
      exact (Point.Reaches.closing h (ih (.group :: frames) folds)).trans (.single rfl)

theorem Point.reaches_answered {point : Point} {routine : Routine}
    (h : point.control = .call routine) :
    point.Reaches (point.answered (routine.run point.session)) := by
  obtain ⟨control, session, frames, folds⟩ := point
  subst h
  exact (answers_run routine session).reaches frames folds

theorem Point.start_reaches_stop (routine : Routine) (session : Session) :
    (Point.start routine session).Reaches (Point.stop (routine.run session)) :=
  reaches_answered rfl

/-! ## What a step does to the session -/

namespace Point

def IsClosing (point : Point) : Prop :=
  ∃ outcome, point.control = .closing outcome

/-- The session follows the groups: it is entered when a group starts to wait and left when its
answer comes. -/
inductive Effect (point next : Point) : Prop
  | read (hsession : next.session = point.session ∨ next.session = point.session.advance)
      (hgroups : next.frames.count .group = point.frames.count .group) (hclosing : ¬ next.IsClosing)
  | enter (hroom : point.session.depth < point.session.options.maxDepth)
      (hsession : next.session = point.session.enter)
      (hframes : next.frames = .group :: point.frames) (hclosing : ¬ next.IsClosing)
  | leave (hsession : next.session = point.session.leave)
      (hframes : point.frames = .group :: next.frames)

theorem effect_call (point : Point) (routine : Routine) : point.Effect (point.call routine) := by
  cases routine with
  | expression level => exact .read (.inl rfl) (by simp [call]) (by simp [call, IsClosing])
  | chain level lhs =>
      rw [call]
      split
      · exact .read (.inl rfl) rfl (by simp [IsClosing])
      · exact .read (.inr rfl) (by simp) (by simp [IsClosing])
  | operand level =>
      rw [call]
      split <;> exact .read (.inl rfl) rfl (by simp [IsClosing])
  | primary =>
      rw [call]
      split <;> exact .read (.inr rfl) rfl (by simp [IsClosing])
  | group =>
      rw [call]
      split
      · exact .read (.inl rfl) rfl (by simp [IsClosing])
      · rename_i hroom
        exact .enter (UInt64.not_le.1 hroom) rfl rfl (by simp [IsClosing])

theorem effect_close (point : Point) (outcome : Except EvalError Float) :
    point.Effect (point.close outcome) := by
  cases outcome with
  | ok value =>
      rw [close]
      split
      · exact .read (.inr rfl) rfl (by simp [IsClosing])
      · exact .read (.inl rfl) rfl (by simp [IsClosing])
  | error error => exact .read (.inl rfl) rfl (by simp [close, IsClosing])

theorem effect_resume {point : Point} {frame : Frame} {frames : List Frame}
    (h : point.frames = frame :: frames) (outcome : Except EvalError Float) :
    point.Effect ({ point with frames }.resume outcome frame) := by
  cases frame with
  | group => exact .leave rfl h
  | first | next =>
      cases outcome <;> exact .read (.inl rfl) (by simp [resume, h]) (by simp [resume, IsClosing])

theorem effect_of_step? {point next : Point} (h : point.step? = some next) : point.Effect next := by
  rw [step?] at h
  split at h
  · cases h
    exact effect_call _ _
  · cases h
    exact effect_close _ _
  · rename_i hframes
    cases h
    exact effect_resume hframes _
  · contradiction

end Point

/-! ## Ranges -/

/-- One change of a session: the depth is counted up and down as a number, with no wrap. -/
inductive Session.Changes (session : Session) : Session → Prop
  | stay : session.Changes session
  | advance : session.Changes session.advance
  | enter (h : session.enter.depth.toNat = session.depth.toNat + 1) :
      session.Changes session.enter
  | leave (h : session.depth.toNat = session.leave.depth.toNat + 1) :
      session.Changes session.leave

namespace Session

/-- The session stands between the base and the end of the same tokens. -/
structure Within (base session : Session) : Prop where
  tokens_eq : session.tokens = base.tokens
  options_eq : session.options = base.options
  position_ge : base.position ≤ session.position
  position_le : session.position ≤ base.tokens.size

namespace Within

variable {base session : Session}

theorem advance (h : base.Within session) : base.Within session.advance where
  tokens_eq := h.tokens_eq
  options_eq := h.options_eq
  position_ge := Nat.le_trans h.position_ge (Nat.le_add_right _ _)
  position_le := by
    have hle := h.position_le
    simp only [Session.advance, Cursor.advance, Cursor.skip, Cursor.left, h.tokens_eq]
    omega

theorem enter (h : base.Within session) : base.Within session.enter :=
  ⟨h.tokens_eq, h.options_eq, h.position_ge, h.position_le⟩

theorem leave (h : base.Within session) : base.Within session.leave :=
  ⟨h.tokens_eq, h.options_eq, h.position_ge, h.position_le⟩

end Within

theorem toNat_depth_leave {session : Session} (h : 0 < session.depth.toNat) :
    session.depth.toNat = session.leave.depth.toNat + 1 := by
  have hone : (1 : UInt64) ≤ session.depth := UInt64.le_iff_toNat_le.2 h
  rw [leave, UInt64.toNat_sub_of_le _ _ hone, UInt64.toNat_one]
  omega

end Session

namespace Point

/-- Each group that waits counts once in the depth.  A group whose parenthesis is looked for was
left, so there is room for one more. -/
structure Bounded (base : Session) (point : Point) : Prop where
  within : base.Within point.session
  depth_eq : point.session.depth.toNat = base.depth.toNat + point.frames.count .group
  depth_le : point.session.depth.toNat ≤ base.options.maxDepth.toNat
  depth_lt : point.IsClosing → point.session.depth.toNat < base.options.maxDepth.toNat

theorem bounded_start {base : Session} (hposition : base.position ≤ base.tokens.size)
    (hdepth : base.depth ≤ base.options.maxDepth) (routine : Routine) :
    (start routine base).Bounded base where
  within := ⟨rfl, rfl, Nat.le_refl _, hposition⟩
  depth_eq := rfl
  depth_le := UInt64.le_iff_toNat_le.1 hdepth
  depth_lt := by simp [start, IsClosing]

namespace Bounded

variable {base : Session} {point next : Point}

theorem step (h : point.Bounded base) (hstep : point.step? = some next) : next.Bounded base := by
  have hdepth := h.depth_eq
  have hle := h.depth_le
  cases effect_of_step? hstep with
  | read hsession hgroups hclosing =>
      have hsame : next.session.depth = point.session.depth := by
        rcases hsession with hsession | hsession <;> rw [hsession]
        rfl
      refine ⟨?_, by rw [hsame, hgroups, hdepth], by rwa [hsame], fun h => absurd h hclosing⟩
      rcases hsession with hsession | hsession <;> rw [hsession]
      · exact h.within
      · exact h.within.advance
  | enter hroom hsession hframes hclosing =>
      have henter := Session.toNat_depth_enter hroom
      have hlt := UInt64.lt_iff_toNat_lt.1 hroom
      rw [h.within.options_eq] at hlt
      refine ⟨hsession ▸ h.within.enter, ?_, ?_, fun h => absurd h hclosing⟩
      · rw [hsession, hframes, List.count_cons_self]
        omega
      · rw [hsession]
        omega
  | leave hsession hframes =>
      rw [hframes, List.count_cons_self] at hdepth
      have hleave : point.session.depth.toNat = point.session.leave.depth.toNat + 1 :=
        Session.toNat_depth_leave (by omega)
      refine ⟨hsession ▸ h.within.leave, ?_, ?_, fun _ => ?_⟩ <;> rw [hsession] <;> omega

theorem run (h : point.Bounded base) (hrun : point.Reaches next) : next.Bounded base := by
  induction hrun with
  | refl => exact h
  | tail _ hstep ih => exact ih.step hstep

theorem changes (h : point.Bounded base) (hstep : point.step? = some next) :
    point.session.Changes next.session := by
  cases effect_of_step? hstep with
  | read hsession =>
      rcases hsession with hsession | hsession <;> rw [hsession]
      · exact .stay
      · exact .advance
  | enter hroom hsession =>
      rw [hsession]
      exact .enter (Session.toNat_depth_enter hroom)
  | leave hsession hframes =>
      have hdepth := h.depth_eq
      rw [hframes, List.count_cons_self] at hdepth
      rw [hsession]
      exact .leave (Session.toNat_depth_leave (by omega))

/-- One group more than fit into the limit can only be one that was just called. -/
theorem groupCalls_le (h : point.Bounded base) (hdepth : base.depth = 0) :
    point.groupCalls ≤ base.options.maxDepth.toNat + 1 ∧
      (point.groupCalls = base.options.maxDepth.toNat + 1 →
        point.control = .call .group ∧ base.options.maxDepth ≤ point.session.depth) := by
  have heq := h.depth_eq
  have hle := h.depth_le
  rw [hdepth, UInt64.toNat_zero, Nat.zero_add] at heq
  rw [groupCalls, UInt64.le_iff_toNat_le]
  split
  · exact ⟨by omega, fun _ => ⟨‹_›, by omega⟩⟩
  · have hlt := h.depth_lt ⟨_, ‹_›⟩
    omega
  · omega

end Bounded

theorem step?_of_maxDepth_le {point : Point} (hcontrol : point.control = .call .group)
    (hdepth : point.session.options.maxDepth ≤ point.session.depth) :
    point.step? = some { point with
      control := .answer (.error (.maxDepthExceeded point.session.options.maxDepth)) } := by
  obtain ⟨control, session, frames, folds⟩ := point
  subst hcontrol
  simp only [step?, call, if_pos hdepth]

end Point

/-- Every point lies on the way to the answer of the routine that was called first, and every
routine called on the way gives the answer it gives on its own. -/
theorem points_stay_in_bounds {session : Session}
    (hposition : session.position ≤ session.tokens.size)
    (hdepth : session.depth ≤ session.options.maxDepth) (routine : Routine) :
    (∀ point, (Point.start routine session).Reaches point →
      point.Reaches (Point.stop (routine.run session)) ∧
      (∀ called, point.control = .call called →
        point.Reaches (point.answered (called.run point.session))) ∧
      session.position ≤ point.session.position ∧
      point.session.position ≤ session.tokens.size ∧
      session.depth ≤ point.session.depth ∧
      point.session.depth ≤ session.options.maxDepth ∧
      point.session.tokens = session.tokens ∧
      point.session.options = session.options ∧
      (∀ next, point.step? = some next → point.session.Changes next.session) ∧
      (session.depth = 0 →
        point.groupCalls ≤ session.options.maxDepth.toNat + 1 ∧
        (point.groupCalls = session.options.maxDepth.toNat + 1 →
          point.control = .call .group ∧
          point.step? = some { point with
            control := .answer (.error (.maxDepthExceeded session.options.maxDepth)) }))) ∧
    (routine.run session).session.depth = session.depth ∧
    (routine.run session).session.tokens = session.tokens ∧
    (routine.run session).session.options = session.options := by
  have hstart := Point.bounded_start hposition hdepth routine
  have hstop := Point.start_reaches_stop routine session
  constructor
  · intro point hpoint
    have hbounded := hstart.run hpoint
    have hwithin := hbounded.within
    refine ⟨hstop.of_stop hpoint, fun _ => Point.reaches_answered, hwithin.position_ge,
      hwithin.position_le, ?_, ?_, hwithin.tokens_eq, hwithin.options_eq,
      fun _ => hbounded.changes, fun hzero => ?_⟩
    · rw [UInt64.le_iff_toNat_le, hbounded.depth_eq]
      exact Nat.le_add_right _ _
    · exact UInt64.le_iff_toNat_le.2 hbounded.depth_le
    · obtain ⟨hle, hlast⟩ := hbounded.groupCalls_le hzero
      refine ⟨hle, fun heq => ?_⟩
      obtain ⟨hcontrol, hfull⟩ := hlast heq
      rw [← hwithin.options_eq] at hfull ⊢
      exact ⟨hcontrol, Point.step?_of_maxDepth_le hcontrol hfull⟩
  · have hbounded := hstart.run hstop
    exact ⟨UInt64.toNat_inj.1 hbounded.depth_eq, hbounded.within.tokens_eq,
      hbounded.within.options_eq⟩

/-- With room for one group, the second of two opening parentheses calls a second one, which answers
at once. -/
theorem points_of_nested_group_in_bounds :
    let session : Session :=
      { tokens := #[.delimiter .left, .delimiter .left, .number 1, .eol], options.maxDepth := 1 }
    ∃ point, (Point.start (.expression loosest) session).Reaches point ∧
      point.groupCalls = 2 ∧ point.session.position = 2 ∧ point.session.depth = 1 ∧
      point.step? = some { point with control := .answer (.error (.maxDepthExceeded 1)) } ∧
      (session.expression loosest).session.depth = 0 := by
  intro session
  have hposition : session.position ≤ session.tokens.size := by decide
  have hlimit : session.depth ≤ session.options.maxDepth := by decide
  obtain ⟨hpoints, hdepth, -⟩ := points_stay_in_bounds hposition hlimit (.expression loosest)
  have hprimary : ∀ inner frames, Point.Reaches ⟨.call (.expression loosest), inner, frames, []⟩
      ⟨.call .primary, inner, .first tightest :: .first loosest :: frames, []⟩ := fun _ _ =>
    .of_step? rfl (.of_step? rfl (.of_step? rfl (.single rfl)))
  have hfirst : (Point.start (.expression loosest) session).Reaches
      ⟨.call (.expression loosest), (session.skip 1).enter,
        [.group, .first tightest, .first loosest], []⟩ :=
    (hprimary session []).trans (.of_step? rfl (.single rfl))
  have hreaches := hfirst.trans ((hprimary (session.skip 1).enter _).trans (.single rfl))
  obtain ⟨-, -, -, -, -, -, -, -, -, hgroups⟩ := hpoints _ hreaches
  obtain ⟨-, hstep⟩ := hgroups rfl
  exact ⟨_, hreaches, rfl, rfl, rfl, (hstep rfl).2, hdepth⟩

end InfixArithmetic
