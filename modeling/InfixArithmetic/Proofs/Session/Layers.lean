import InfixArithmetic.Proofs.Grammar
import InfixArithmetic.Proofs.Session.Rules

/-!
# Sums, products and factors

Here each level of operators has a routine of its own, with no number for the level and no table of
operators: a sum folds products, a product folds factors, and a factor is a number or a sum in
parentheses.  Main statement: `leveled_routines_eq_layers`, the one routine for all levels does at
each of them what the routine of that level does.
-/

namespace InfixArithmetic

open Operator (loosest tightest)

namespace Session

/-! ## Three routines -/

def sumOperator? (session : Session) : Option Operator :=
  match session.peek with
  | .operator .add => some .add
  | .operator .sub => some .sub
  | _ => none

def productOperator? (session : Session) : Option Operator :=
  match session.peek with
  | .operator .mul => some .mul
  | .operator .div => some .div
  | _ => none

theorem operatorAt?_loosest (session : Session) :
    session.operatorAt? loosest = session.sumOperator? := by
  unfold operatorAt? sumOperator?
  cases session.peek with
  | operator op => cases op <;> rfl
  | number | delimiter | eol => rfl

theorem operatorAt?_tightest (session : Session) :
    session.operatorAt? tightest = session.productOperator? := by
  unfold operatorAt? productOperator?
  cases session.peek with
  | operator op => cases op <;> rfl
  | number | delimiter | eol => rfl

/-- An operator in front is passed, so that fewer tokens are left behind it. -/
theorem left_advance_lt_of_operatorAt? {session : Session} {level : Nat} {op : Operator}
    (h : session.operatorAt? level = some op) : session.advance.left < session.left :=
  left_advance_lt (by simp [peek_eq_of_operatorAt? h])

mutual

/-- Products joined by `+` and `-`, folded from the left. -/
def sumRun (session : Session) : Run session :=
  (productRun session).andThen fun value rest _ => sumRestRun value rest
termination_by (session.left, 2)
decreasing_by
  · exact Prod.Lex.right _ (by decide)
  · rename_i h
    exact Prod.Lex.right' _ h (by decide)

/-- The rest of a sum, behind products that came to the given value. -/
def sumRestRun (lhs : Float) (session : Session) : Run session :=
  match _h : session.sumOperator? with
  | none => .ok lhs session (Nat.le_refl _)
  | some op =>
      ((productRun session.advance).andThen fun rhs rest _ =>
        (sumRestRun (op.apply lhs rhs) rest).after ⟨lhs, op, rhs⟩).weaken session.left_advance_le
termination_by (session.left, 0)
decreasing_by
  all_goals have hlt := left_advance_lt_of_operatorAt? (session.operatorAt?_loosest.trans _h)
  · exact Prod.Lex.left _ _ hlt
  · exact Prod.Lex.left _ _ (by omega)

/-- Factors joined by `*` and `/`, folded from the left. -/
def productRun (session : Session) : Run session :=
  (factorRun session).andThen fun value rest _ => productRestRun value rest
termination_by (session.left, 1)
decreasing_by
  · exact Prod.Lex.right _ (by decide)
  · rename_i h
    exact Prod.Lex.right' _ h (by decide)

def productRestRun (lhs : Float) (session : Session) : Run session :=
  match _h : session.productOperator? with
  | none => .ok lhs session (Nat.le_refl _)
  | some op =>
      ((factorRun session.advance).andThen fun rhs rest _ =>
        (productRestRun (op.apply lhs rhs) rest).after ⟨lhs, op, rhs⟩).weaken
          session.left_advance_le
termination_by (session.left, 0)
decreasing_by
  all_goals have hlt := left_advance_lt_of_operatorAt? (session.operatorAt?_tightest.trans _h)
  · exact Prod.Lex.left _ _ hlt
  · exact Prod.Lex.left _ _ (by omega)

/-- A number, or a sum in parentheses where there is room for one more group. -/
def factorRun (session : Session) : Run session :=
  match _h : session.peek with
  | .number value => .ok value session.advance session.left_advance_le
  | .delimiter .left =>
      if session.options.maxDepth ≤ session.depth then
        .error (.maxDepthExceeded session.options.maxDepth) session.advance session.left_advance_le
      else
        ((sumRun session.advance.enter).leave.andThen fun value rest _ =>
          if rest.peek = .delimiter .right then .ok value rest.advance rest.left_advance_le
          else .error .mismatchedParentheses rest (Nat.le_refl _)).weaken session.left_advance_le
  | token => .error (.unexpectedToken token) session.advance session.left_advance_le
termination_by (session.left, 0)
decreasing_by
  have hlt : session.advance.left < session.left := left_advance_lt (by simp [_h])
  exact Prod.Lex.left _ _ hlt

end

def sum (session : Session) : Evaluation :=
  session.sumRun.toEvaluation

def sumRest (lhs : Float) (session : Session) : Evaluation :=
  (session.sumRestRun lhs).toEvaluation

def product (session : Session) : Evaluation :=
  session.productRun.toEvaluation

def productRest (lhs : Float) (session : Session) : Evaluation :=
  (session.productRestRun lhs).toEvaluation

def factor (session : Session) : Evaluation :=
  session.factorRun.toEvaluation

/-! ## What they answer -/

theorem sum_eq (session : Session) :
    session.sum = session.product.andThen fun value rest => rest.sumRest value := by
  rw [sum, sumRun]
  exact Run.toEvaluation_andThen _ _

theorem sumRest_eq (lhs : Float) (session : Session) :
    session.sumRest lhs =
      match session.sumOperator? with
      | none => .ok lhs session
      | some op =>
          session.advance.product.andThen fun rhs rest =>
            (rest.sumRest (op.apply lhs rhs)).after ⟨lhs, op, rhs⟩ := by
  rw [sumRest, sumRestRun]
  split
  case h_1 h =>
    rw [h]
    rfl
  case h_2 op h =>
    rw [h]
    exact Run.toEvaluation_andThen session.advance.productRun fun rhs rest =>
      (rest.sumRestRun (op.apply lhs rhs)).after ⟨lhs, op, rhs⟩

theorem product_eq (session : Session) :
    session.product = session.factor.andThen fun value rest => rest.productRest value := by
  rw [product, productRun]
  exact Run.toEvaluation_andThen _ _

theorem productRest_eq (lhs : Float) (session : Session) :
    session.productRest lhs =
      match session.productOperator? with
      | none => .ok lhs session
      | some op =>
          session.advance.factor.andThen fun rhs rest =>
            (rest.productRest (op.apply lhs rhs)).after ⟨lhs, op, rhs⟩ := by
  rw [productRest, productRestRun]
  split
  case h_1 h =>
    rw [h]
    rfl
  case h_2 op h =>
    rw [h]
    exact Run.toEvaluation_andThen session.advance.factorRun fun rhs rest =>
      (rest.productRestRun (op.apply lhs rhs)).after ⟨lhs, op, rhs⟩

theorem factor_eq (session : Session) :
    session.factor =
      match session.peek with
      | .number value => .ok value session.advance
      | .delimiter .left =>
          if session.options.maxDepth ≤ session.depth then
            .error (.maxDepthExceeded session.options.maxDepth) session.advance
          else
            session.advance.enter.sum.leave.andThen fun value rest =>
              if rest.peek = .delimiter .right then .ok value rest.advance
              else .error .mismatchedParentheses rest
      | token => .error (.unexpectedToken token) session.advance := by
  rw [factor, factorRun]
  split
  case h_1 h =>
    simp only [h]
    rfl
  case h_2 h =>
    simp only [h]
    split
    · rfl
    · refine (Run.toEvaluation_andThen session.advance.enter.sumRun.leave fun value rest =>
        if rest.peek = .delimiter .right then .ok value rest.advance rest.left_advance_le
        else .error .mismatchedParentheses rest (Nat.le_refl _)).trans ?_
      congr
      funext value rest
      split <;> rfl
  case h_3 =>
    simp_all
    rfl

theorem factor_of_room {session : Session} (hpeek : session.peek = .delimiter .left)
    (hroom : session.depth < session.options.maxDepth) :
    session.factor =
      session.advance.enter.sum.leave.andThen fun value rest =>
        if rest.peek = .delimiter .right then .ok value rest.advance
        else .error .mismatchedParentheses rest := by
  simp only [factor_eq, hpeek, if_neg (UInt64.not_le.2 hroom)]

end Session

/-! ## The routine of a category -/

namespace Category

def read : Category → Session → Evaluation
  | expression => Session.sum
  | term => Session.product
  | factor => Session.factor

/-- Nothing goes on behind a factor. -/
def readRest : Category → Float → Session → Evaluation
  | expression => Session.sumRest
  | term => Session.productRest
  | factor => Evaluation.ok

variable {category : Category}

theorem read_eq (hfactor : category ≠ .factor) (session : Session) :
    category.read session =
      (category.operand.read session).andThen fun value rest => category.readRest value rest := by
  cases category with
  | expression => exact session.sum_eq
  | term => exact session.product_eq
  | factor => contradiction

theorem readRest_eq (hfactor : category ≠ .factor) (lhs : Float) (session : Session) :
    category.readRest lhs session =
      match session.operatorAt? category.level with
      | none => .ok lhs session
      | some op =>
          (category.operand.read session.advance).andThen fun rhs rest =>
            (category.readRest (op.apply lhs rhs) rest).after ⟨lhs, op, rhs⟩ := by
  cases category with
  | expression =>
      have hop : session.operatorAt? expression.level = _ := session.operatorAt?_loosest
      rw [hop]
      exact session.sumRest_eq lhs
  | term =>
      have hop : session.operatorAt? term.level = _ := session.operatorAt?_tightest
      rw [hop]
      exact session.productRest_eq lhs
  | factor => contradiction

end Category

/-! ## The routine for all levels -/

/-- What a routine answers is what the routine of its level answers; a group is read as the factor
that starts at its opening parenthesis. -/
def Routine.Layered : Routine → Session → Evaluation → Prop
  | expression level, session, evaluation => ∀ category : Category, category ≠ .factor →
      category.level = level → category.read session = evaluation
  | chain level lhs, session, evaluation => ∀ category : Category, category ≠ .factor →
      category.level = level → category.readRest lhs session = evaluation
  | operand level, session, evaluation => ∀ category : Category, category ≠ .factor →
      category.level = level → category.operand.read session = evaluation
  | primary, session, evaluation => session.factor = evaluation
  | group, session, evaluation => ∀ start : Session, start.peek = .delimiter .left →
      start.advance = session → start.factor = evaluation

theorem Answers.layered {routine : Routine} {session : Session} {evaluation : Evaluation}
    (h : Answers routine session evaluation) : routine.Layered session evaluation := by
  induction h with
  | expression _ _ ihOperand ihChain =>
      intro category hfactor hlevel
      rw [Category.read_eq hfactor, ihOperand category hfactor hlevel, Evaluation.andThen]
      simp only [ihChain category hfactor hlevel]
  | expressionError _ ih =>
      intro category hfactor hlevel
      rw [Category.read_eq hfactor, ih category hfactor hlevel]
      rfl
  | stop h =>
      intro category hfactor hlevel
      rw [Category.readRest_eq hfactor, hlevel, h]
      rfl
  | fold h _ _ ihOperand ihChain =>
      intro category hfactor hlevel
      rw [Category.readRest_eq hfactor, hlevel, h]
      simp only [ihOperand category hfactor hlevel, Evaluation.andThen,
        ihChain category hfactor hlevel, Evaluation.after]
  | foldError h _ ih =>
      intro category hfactor hlevel
      rw [Category.readRest_eq hfactor, hlevel, h]
      simp only [ih category hfactor hlevel, Evaluation.andThen]
  | tighter hlt _ ih =>
      -- The next level is that of the operands, until these are factors and have none.
      intro category hfactor hlevel
      subst hlevel
      exact ih category.operand (Category.operand_ne_factor hlt) (Category.level_operand hfactor)
  | tightest hle _ ih =>
      intro category hfactor hlevel
      subst hlevel
      obtain rfl := Category.eq_term hfactor hle
      exact ih
  | number hpeek =>
      simp only [Routine.Layered, Session.factor_eq, hpeek]
      rfl
  | @opening session _ hpeek _ ih => exact ih session hpeek rfl
  | unexpected hnumber hleft =>
      simp only [Routine.Layered, Session.factor_eq]
      rfl
  | tooDeep hdepth =>
      rintro start hpeek rfl
      have hfull : start.options.maxDepth ≤ start.depth := hdepth
      simp only [Session.factor_eq, hpeek, if_pos hfull]
      rfl
  | @closed _ value rest folds hdepth hclose _ ih =>
      rintro start hpeek rfl
      have hsum : start.advance.enter.sum = ⟨.ok value, rest, folds⟩ :=
        ih .expression (by decide) rfl
      have hright : rest.leave.peek = .delimiter .right := hclose
      rw [Session.factor_of_room hpeek hdepth, hsum]
      simp [Evaluation.leave, Evaluation.andThen, hright, Evaluation.ok]
  | @unclosed _ value rest folds hdepth hclose _ ih =>
      rintro start hpeek rfl
      have hsum : start.advance.enter.sum = ⟨.ok value, rest, folds⟩ :=
        ih .expression (by decide) rfl
      have hright : rest.leave.peek ≠ .delimiter .right := hclose
      rw [Session.factor_of_room hpeek hdepth, hsum]
      simp [Evaluation.leave, Evaluation.andThen, hright, Evaluation.error]
  | @groupError _ error rest folds hdepth _ ih =>
      rintro start hpeek rfl
      have hsum : start.advance.enter.sum = ⟨.error error, rest, folds⟩ :=
        ih .expression (by decide) rfl
      rw [Session.factor_of_room hpeek hdepth, hsum]
      rfl

theorem leveled_routines_eq_layers (session : Session) :
    session.expression loosest = session.sum ∧
    session.expression tightest = session.product ∧
    session.primary = session.factor := by
  refine ⟨Eq.symm ?_, Eq.symm ?_, Eq.symm ?_⟩
  · exact (answers_run (.expression loosest) session).layered .expression (by decide) rfl
  · exact (answers_run (.expression tightest) session).layered .term (by decide) rfl
  · exact (answers_run .primary session).layered

end InfixArithmetic
