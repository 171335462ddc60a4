import InfixArithmetic.Proofs.Grammar.Nesting
import InfixArithmetic.Proofs.Scan.Tiling
import InfixArithmetic.Report

/-!
# Renderings

An expression is a tree of operators over numerals.  A rendering writes it, with the parentheses that
keep its operands together and with any others, and a text may put blanks anywhere in between.  Main
statement: `evaluate_of_writes`, the text of a rendering has the value of the expression, whichever
rendering it is, unless its parentheses are nested too deep.
-/

namespace InfixArithmetic

inductive Expression where
  | numeral (spelling : Numeral)
  | binary (lhs : Expression) (op : Operator) (rhs : Expression)
  deriving DecidableEq

def Expression.value : Expression → Float
  | numeral spelling => spelling.value
  | binary lhs op rhs => op.apply lhs.value rhs.value

inductive Rendering where
  | numeral (spelling : Numeral)
  | binary (lhs : Rendering) (op : Operator) (rhs : Rendering)
  | parenthesized (body : Rendering)
  deriving DecidableEq

namespace Rendering

/-! ## What a rendering writes -/

def expression : Rendering → Expression
  | numeral spelling => .numeral spelling
  | binary lhs op rhs => .binary lhs.expression op rhs.expression
  | parenthesized body => body.expression

def chars : Rendering → List Char
  | numeral spelling => spelling.chars
  | binary lhs op rhs => lhs.chars ++ op.symbol :: rhs.chars
  | parenthesized body => '(' :: body.chars ++ [')']

/-- How deep parentheses are nested. -/
def nesting : Rendering → Nat
  | numeral _ => 0
  | binary lhs _ rhs => max lhs.nesting rhs.nesting
  | parenthesized body => body.nesting + 1

def precedence : Rendering → Nat
  | binary _ .add _ | binary _ .sub _ => 1
  | binary _ .mul _ | binary _ .div _ => 2
  | numeral _ | parenthesized _ => 3

/-- Left operands of lower precedence and right operands of lower or equal precedence are in
parentheses. -/
def Grouped : Rendering → Prop
  | numeral _ => True
  | binary lhs op rhs => lhs.Grouped ∧ rhs.Grouped ∧
      (binary lhs op rhs).precedence ≤ lhs.precedence ∧
      (binary lhs op rhs).precedence < rhs.precedence
  | parenthesized body => body.Grouped

instance decidableGrouped : (rendering : Rendering) → Decidable rendering.Grouped
  | numeral _ => .isTrue trivial
  | binary lhs op rhs =>
      have := decidableGrouped lhs
      have := decidableGrouped rhs
      inferInstanceAs (Decidable (lhs.Grouped ∧ rhs.Grouped ∧
        (binary lhs op rhs).precedence ≤ lhs.precedence ∧
        (binary lhs op rhs).precedence < rhs.precedence))
  | parenthesized body => decidableGrouped body

structure Writes (rendering : Rendering) (expression : Expression) (text : String) : Prop where
  expression_eq : rendering.expression = expression
  grouped : rendering.Grouped
  visible_eq : visible text = rendering.chars

/-! ## Its lexemes -/

def lexemes : Rendering → List Lexeme
  | numeral spelling => [.numeral spelling]
  | binary lhs op rhs => lhs.lexemes ++ .operator op :: rhs.lexemes
  | parenthesized body => .delimiter .left :: body.lexemes ++ [.delimiter .right]

def tokens (rendering : Rendering) : List Token :=
  rendering.lexemes.map Lexeme.token

theorem flatMap_chars_lexemes (rendering : Rendering) :
    rendering.lexemes.flatMap Lexeme.chars = rendering.chars := by
  induction rendering with
  | numeral spelling => simp [lexemes, chars, Lexeme.chars]
  | binary lhs op rhs ihLhs ihRhs => simp [lexemes, chars, Lexeme.chars, ihLhs, ihRhs]
  | parenthesized body ih => simp [lexemes, chars, Lexeme.chars, Delimiter.symbol, ih]

theorem separated_lexemes (rendering : Rendering) : Separated rendering.lexemes := by
  induction rendering with
  | numeral spelling => exact .singleton _
  | binary lhs op rhs ihLhs ihRhs => exact separated_append_cons ihLhs ihRhs rfl
  | parenthesized body ih =>
      have hopened : Separated (.delimiter .left :: body.lexemes) :=
        separated_append_cons .nil ih rfl
      exact separated_append_cons hopened .nil rfl

theorem tiles_lexemes (rendering : Rendering) : Tiles rendering.lexemes rendering.chars :=
  ⟨rendering.flatMap_chars_lexemes, rendering.separated_lexemes⟩

end Rendering

/-! ## Its derivation -/

def Category.Derives (category : Category) (tokens : List Token) (value : Float)
    (nesting : Nat) : Prop :=
  ∃ tree : Derivation category,
    tree.tokens = tokens ∧ tree.value = value ∧ tree.nesting = nesting

namespace Category.Derives

variable {category other : Category} {tokens more : List Token} {value rhs : Float}
  {nesting deeper : Nat}

theorem number (value : Float) : Category.factor.Derives [.number value] value 0 :=
  ⟨.number value, rfl, rfl, rfl⟩

theorem group (h : Category.expression.Derives tokens value nesting) :
    Category.factor.Derives (.delimiter .left :: tokens ++ [.delimiter .right]) value
      (nesting + 1) := by
  obtain ⟨tree, rfl, hvalue, rfl⟩ := h
  exact ⟨.group tree, rfl, hvalue, rfl⟩

theorem binary {op : Operator} (hop : op ∈ category.operators)
    (hlhs : category.Derives tokens value nesting)
    (hrhs : category.operand.Derives more rhs deeper) :
    category.Derives (tokens ++ .operator op :: more) (op.apply value rhs)
      (max nesting deeper) := by
  obtain ⟨left, rfl, rfl, rfl⟩ := hlhs
  obtain ⟨right, rfl, rfl, rfl⟩ := hrhs
  exact ⟨.binary left op hop right, rfl, rfl, rfl⟩

theorem single (hfactor : category ≠ .factor) (h : category.operand.Derives tokens value nesting) :
    category.Derives tokens value nesting := by
  obtain ⟨tree, htokens, hvalue, hnesting⟩ := h
  exact ⟨.single hfactor tree, htokens, hvalue, hnesting⟩

/-- Whatever a category derives, the looser ones derive too. -/
theorem of_level_le (h : other.Derives tokens value nesting) (hle : category.level ≤ other.level) :
    category.Derives tokens value nesting := by
  cases other with
  | expression =>
      cases category with
      | expression => exact h
      | term | factor => contradiction
  | term =>
      cases category with
      | expression => exact single (by decide) h
      | term => exact h
      | factor => contradiction
  | factor =>
      cases category with
      | expression =>
          have hterm : Category.term.Derives tokens value nesting := single (by decide) h
          exact single (by decide) hterm
      | term => exact single (by decide) h
      | factor => exact h

end Category.Derives

namespace Rendering

theorem precedence_binary (lhs rhs : Rendering) (op : Operator) :
    (binary lhs op rhs).precedence = op.level := by
  cases op <;> rfl

theorem level_expression_le_precedence (rendering : Rendering) :
    Category.expression.level ≤ rendering.precedence := by
  cases rendering with
  | binary lhs op rhs =>
      rw [precedence_binary]
      exact op.loosest_le_level
  | numeral | parenthesized => exact Nat.le_add_left 1 2

theorem derives {rendering : Rendering} (h : rendering.Grouped) {category : Category}
    (hlevel : category.level ≤ rendering.precedence) :
    category.Derives rendering.tokens rendering.expression.value rendering.nesting := by
  induction rendering generalizing category with
  | numeral spelling =>
      have hfactor := Category.Derives.number spelling.value
      exact hfactor.of_level_le hlevel
  | binary lhs op rhs ihLhs ihRhs =>
      obtain ⟨hlhsGrouped, hrhsGrouped, hlhsLe, hrhsLt⟩ := h
      rw [precedence_binary] at hlevel hlhsLe hrhsLt
      obtain ⟨own, hop⟩ := Category.exists_mem_operators op
      have hown := Category.mem_operators_iff.1 hop
      have hoperand := Category.level_operand (Category.ne_factor_of_mem_operators hop)
      have hlhs := ihLhs hlhsGrouped (show own.level ≤ lhs.precedence by omega)
      have hrhs := ihRhs hrhsGrouped (show own.operand.level ≤ rhs.precedence by omega)
      have hbinary := hlhs.binary hop hrhs
      have htokens : (binary lhs op rhs).tokens = lhs.tokens ++ .operator op :: rhs.tokens := by
        simp [tokens, lexemes, Lexeme.token]
      rw [htokens]
      exact hbinary.of_level_le (by omega)
  | parenthesized body ih =>
      have hgroup := (ih h body.level_expression_le_precedence).group
      have htokens : (parenthesized body).tokens =
          .delimiter .left :: body.tokens ++ [.delimiter .right] := by
        simp [tokens, lexemes, Lexeme.token]
      rw [htokens]
      exact hgroup.of_level_le hlevel

end Rendering

/-! ## Its value -/

namespace Rendering

variable {rendering : Rendering} {expression : Expression} {text : String}

theorem Writes.exists_session (h : rendering.Writes expression text) (options : Options) :
    ∃ session, Session.ofText text options = .ok session ∧
      session.evaluate.outcome =
        if rendering.nesting ≤ options.maxDepth.toNat then .ok expression.value
        else .error (.maxDepthExceeded options.maxDepth) := by
  have htiles : Tiles rendering.lexemes (visible text) := h.visible_eq ▸ rendering.tiles_lexemes
  have hsession := Session.ofText_eq_ok_of_tokenize (tokenize_eq_ok_of_tiles htiles) options
  obtain ⟨tree, htokens, hvalue, hnesting⟩ :=
    derives h.grouped rendering.level_expression_le_precedence
  refine ⟨_, hsession, ?_⟩
  rw [← h.expression_eq, ← hvalue, ← hnesting]
  have hfollow : ∀ op, ([.eol] : List Token).head?.getD .eol ≠ .operator op := by simp
  refine Session.outcome_evaluate_of_remaining_eq rfl ?_ hfollow
  simp [Cursor.remaining, htokens, tokens]

end Rendering

theorem evaluate_of_writes {rendering : Rendering} {expression : Expression} {text : String}
    (h : rendering.Writes expression text) :
    (∀ options : Options, ∃ session, Session.ofText text options = .ok session ∧
      session.evaluate.outcome =
        if rendering.nesting ≤ options.maxDepth.toNat then .ok expression.value
        else .error (.maxDepthExceeded options.maxDepth)) ∧
    (evaluate text =
      if rendering.nesting ≤ 256 then .ok expression.value else .error (.maxDepthExceeded 256)) ∧
    ∀ (other : Rendering) (text' : String), other.Writes expression text' →
      ∀ options : Options, rendering.nesting ≤ options.maxDepth.toNat →
        other.nesting ≤ options.maxDepth.toNat →
        ∃ session session', Session.ofText text options = .ok session ∧
          Session.ofText text' options = .ok session' ∧
          session.evaluate.outcome = session'.evaluate.outcome := by
  refine ⟨h.exists_session, ?_, ?_⟩
  · obtain ⟨session, hsession, houtcome⟩ := h.exists_session {}
    rw [evaluate, hsession]
    exact houtcome
  · intro other text' hother options hnesting hnesting'
    obtain ⟨session, hsession, houtcome⟩ := h.exists_session options
    obtain ⟨session', hsession', houtcome'⟩ := hother.exists_session options
    rw [if_pos hnesting] at houtcome
    rw [if_pos hnesting'] at houtcome'
    exact ⟨session, session', hsession, hsession', houtcome.trans houtcome'.symm⟩

/-- The rendering `(12-(2-3))/(4.5)`. -/
def Rendering.quotient : Rendering :=
  let two : Rendering := .numeral ⟨[2], [], List.cons_ne_nil _ _⟩
  let three : Rendering := .numeral ⟨[3], [], List.cons_ne_nil _ _⟩
  let twelve : Rendering := .numeral ⟨[1, 2], [], List.cons_ne_nil _ _⟩
  let fourAndHalf : Rendering := .numeral ⟨[4], [5], List.cons_ne_nil _ _⟩
  .binary (.parenthesized (.binary twelve .sub (.parenthesized (.binary two .sub three)))) .div
    (.parenthesized fourAndHalf)

theorem evaluate_quotient :
    let text := " ( 1 2-(2 -3))/( 4.\t5 )"
    Rendering.quotient.Writes Rendering.quotient.expression text ∧
      evaluate text = .ok Rendering.quotient.expression.value ∧
      ∃ session, Session.ofText text { maxDepth := 1 } = .ok session ∧
        session.evaluate.outcome = .error (.maxDepthExceeded 1) := by
  intro text
  have hwrites : Rendering.quotient.Writes Rendering.quotient.expression text :=
    ⟨rfl, by decide, by decide⟩
  obtain ⟨hoptions, hdefault, -⟩ := evaluate_of_writes hwrites
  exact ⟨hwrites, hdefault, hoptions { maxDepth := 1 }⟩

end InfixArithmetic
