import InfixArithmetic.Record
import Mathlib.Logic.Function.Defs

/-!
# The grammar of expressions

The grammar is left-recursive, so that a derivation groups operators from the left:

    E ::= T | E + T | E - T
    T ::= F | T * F | T / F
    F ::= NUMBER | ( E )

The rules of `E` and `T` have one shape, and `Category.operators` and `Category.operand` say what
differs.  A derivation is a tree of this grammar; `Derivation.tokens` is what it derives.  Main
statement: `Derivation.tokens_injective`, the grammar is unambiguous.
-/

namespace InfixArithmetic

open Operator (loosest tightest)

inductive Category where
  | expression
  | term
  | factor
  deriving DecidableEq, Repr

namespace Category

def operators : Category → List Operator
  | expression => [.add, .sub]
  | term => [.mul, .div]
  | factor => []

def operand : Category → Category
  | expression => term
  | term | factor => factor

def level : Category → Nat
  | expression => loosest
  | term => tightest
  | factor => tightest + 1

theorem mem_operators_iff {category : Category} {op : Operator} :
    op ∈ category.operators ↔ op.level = category.level := by
  cases category <;> cases op <;> decide

theorem exists_mem_operators (op : Operator) : ∃ category, op ∈ operators category := by
  cases op with
  | add | sub => exact ⟨.expression, by decide⟩
  | mul | div => exact ⟨.term, by decide⟩

theorem level_operand {category : Category} (h : category ≠ .factor) :
    category.operand.level = category.level + 1 := by
  cases category with
  | expression => rfl
  | term => rfl
  | factor => contradiction

theorem level_le_level_operand (category : Category) :
    category.level ≤ category.operand.level := by
  cases category <;> decide

theorem operand_ne_factor {category : Category} (h : category.level < tightest) :
    category.operand ≠ .factor := by
  cases category with
  | expression => decide
  | term | factor => contradiction

theorem eq_term {category : Category} (hfactor : category ≠ .factor)
    (h : tightest ≤ category.level) : category = .term := by
  cases category with
  | expression => contradiction
  | term => rfl
  | factor => contradiction

theorem ne_factor_of_mem_operators {category : Category} {op : Operator}
    (h : op ∈ category.operators) : category ≠ .factor := by
  rintro rfl
  simp [operators] at h

end Category

inductive Derivation : Category → Type
  | single {category : Category} (h : category ≠ .factor)
      (only : Derivation category.operand) : Derivation category
  | binary {category : Category} (lhs : Derivation category) (op : Operator)
      (h : op ∈ category.operators) (rhs : Derivation category.operand) : Derivation category
  | number (value : Float) : Derivation .factor
  | group (body : Derivation .expression) : Derivation .factor

namespace Derivation

variable {category : Category}

def tokens : {category : Category} → Derivation category → List Token
  | _, single _ only => only.tokens
  | _, binary lhs op _ rhs => lhs.tokens ++ .operator op :: rhs.tokens
  | _, number value => [.number value]
  | _, group body => .delimiter .left :: body.tokens ++ [.delimiter .right]

def value : {category : Category} → Derivation category → Float
  | _, single _ only => only.value
  | _, binary lhs op _ rhs => op.apply lhs.value rhs.value
  | _, number value => value
  | _, group body => body.value

/-- How deep groups are nested. -/
def nesting : {category : Category} → Derivation category → Nat
  | _, single _ only => only.nesting
  | _, binary lhs _ _ rhs => max lhs.nesting rhs.nesting
  | _, number _ => 0
  | _, group body => body.nesting + 1

/-- The applications of operators, each after those inside its operands. -/
def folds : {category : Category} → Derivation category → List Fold
  | _, single _ only => only.folds
  | _, binary lhs op _ rhs => lhs.folds ++ rhs.folds ++ [⟨lhs.value, op, rhs.value⟩]
  | _, number _ => []
  | _, group body => body.folds

theorem tokens_ne_nil (tree : Derivation category) : tree.tokens ≠ [] := by
  induction tree with
  | single _ _ ih => exact ih
  | binary | number | group => simp [tokens]

end Derivation

/-! ## Balance of parentheses -/

def Token.tilt : Token → Int
  | .delimiter .left => 1
  | .delimiter .right => -1
  | _ => 0

/-- Opening parentheses minus closing ones. -/
def balance : List Token → Int
  | [] => 0
  | token :: tokens => token.tilt + balance tokens

@[simp] theorem balance_nil : balance [] = 0 := rfl

@[simp] theorem balance_cons (token : Token) (tokens : List Token) :
    balance (token :: tokens) = token.tilt + balance tokens := rfl

@[simp] theorem balance_append (first second : List Token) :
    balance (first ++ second) = balance first + balance second := by
  induction first with
  | nil => simp
  | cons token first ih => simp [ih, Int.add_assoc]

namespace Derivation

variable {category : Category}

@[simp] theorem balance_tokens (tree : Derivation category) : balance tree.tokens = 0 := by
  induction tree with
  | single _ _ ih => exact ih
  | binary lhs op _ rhs ihLhs ihRhs => simp [tokens, ihLhs, ihRhs, Token.tilt]
  | number value => rfl
  | group body ih => simp [tokens, ih, Token.tilt]

/-- An operator inside a group leaves a closing parenthesis behind it; one outside of all groups
binds at least as tightly as the category asks. -/
theorem balance_of_tokens_eq_append (tree : Derivation category) {before after : List Token}
    {op : Operator} (h : tree.tokens = before ++ .operator op :: after) :
    balance after < 0 ∨ balance after = 0 ∧ category.level ≤ op.level := by
  induction tree generalizing before after with
  | @single category _ only ih =>
      have hlevel := category.level_le_level_operand
      rcases ih h with hneg | ⟨hzero, hle⟩
      · exact .inl hneg
      · exact .inr ⟨hzero, Nat.le_trans hlevel hle⟩
  | @binary category lhs op' hop rhs ihLhs ihRhs =>
      have hlevel := category.level_le_level_operand
      have hsame : category.level ≤ op'.level :=
        Nat.le_of_eq (Category.mem_operators_iff.1 hop).symm
      rcases List.append_eq_append_iff.1 h with ⟨mid, rfl, hmid⟩ | ⟨mid, hmid, hafter⟩
      · cases mid with
        | nil =>
            obtain ⟨rfl, rfl⟩ : op' = op ∧ rhs.tokens = after := by simpa using hmid
            exact .inr ⟨rhs.balance_tokens, hsame⟩
        | cons token mid =>
            obtain ⟨-, hrhs⟩ := List.cons.inj hmid
            rcases ihRhs hrhs with hneg | ⟨hzero, hle⟩
            · exact .inl hneg
            · exact .inr ⟨hzero, Nat.le_trans hlevel hle⟩
      · cases mid with
        | nil =>
            obtain ⟨rfl, rfl⟩ : op = op' ∧ after = rhs.tokens := by simpa using hafter
            exact .inr ⟨rhs.balance_tokens, hsame⟩
        | cons token mid =>
            obtain ⟨rfl, rfl⟩ := List.cons.inj hafter
            simpa [Token.tilt] using ihLhs hmid
  | number value =>
      have hlength := congrArg List.length h
      have hhead := congrArg List.head? h
      cases before <;> simp [tokens] at hlength hhead
  | group body ih =>
      obtain ⟨before, rfl, hbody⟩ : ∃ rest, before = .delimiter .left :: rest ∧
          body.tokens ++ [.delimiter .right] = rest ++ .operator op :: after := by
        cases before with
        | nil => simp [tokens] at h
        | cons token rest =>
            obtain ⟨rfl, hrest⟩ := List.cons.inj h
            exact ⟨rest, rfl, hrest⟩
      rcases List.append_eq_append_iff.1 hbody with ⟨mid, rfl, hmid⟩ | ⟨mid, hmid, hafter⟩
      · cases mid <;> simp at hmid
      · cases mid with
        | nil => simp at hafter
        | cons token mid =>
            obtain ⟨rfl, rfl⟩ := List.cons.inj hafter
            left
            rcases ih hmid with hneg | ⟨hzero, -⟩ <;> simp [Token.tilt] <;> omega

/-! ## Unambiguity -/

/-- An operand holds no operator of its chain outside of its groups, so a chain cannot be split
inside it. -/
theorem tokens_ne_append {before : List Token} {op : Operator} (hop : op ∈ category.operators)
    (operand rhs : Derivation category.operand) :
    operand.tokens ≠ before ++ .operator op :: rhs.tokens := by
  intro h
  have hlevel := Category.level_operand (Category.ne_factor_of_mem_operators hop)
  have hsame := Category.mem_operators_iff.1 hop
  have hbalance := rhs.balance_tokens
  rcases operand.balance_of_tokens_eq_append h with hneg | ⟨-, hle⟩ <;> omega

theorem binary_tokens_inj {lhs lhs' : List Token} {op op' : Operator}
    (hop : op ∈ category.operators) (hop' : op' ∈ category.operators)
    {rhs rhs' : Derivation category.operand}
    (h : lhs ++ .operator op :: rhs.tokens = lhs' ++ .operator op' :: rhs'.tokens) :
    lhs = lhs' ∧ op = op' ∧ rhs.tokens = rhs'.tokens := by
  rcases List.append_eq_append_iff.1 h with ⟨mid, rfl, hmid⟩ | ⟨mid, rfl, hmid⟩
  · cases mid with
    | nil => simpa using hmid
    | cons token mid => exact absurd (List.cons.inj hmid).2 (tokens_ne_append hop' rhs rhs')
  · cases mid with
    | nil => simpa [eq_comm] using hmid
    | cons token mid => exact absurd (List.cons.inj hmid).2 (tokens_ne_append hop rhs' rhs)

theorem tokens_injective : Function.Injective (tokens : Derivation category → List Token) := by
  intro first
  induction first with
  | @single category hfactor only ih =>
      intro second h
      cases second with
      | single _ only' => rw [ih h]
      | binary lhs op hop rhs => exact absurd h (tokens_ne_append hop only rhs)
      | number | group => contradiction
  | @binary category lhs op hop rhs ihLhs ihRhs =>
      intro second h
      cases second with
      | single _ only => exact absurd h.symm (tokens_ne_append hop only rhs)
      | binary lhs' op' hop' rhs' =>
          obtain ⟨hlhs, rfl, hrhs⟩ := binary_tokens_inj hop hop' h
          rw [ihLhs hlhs, ihRhs hrhs]
      | number | group => simp [Category.operators] at hop
  | number value =>
      intro second h
      cases second with
      | single hfactor => contradiction
      | binary _ _ hop => simp [Category.operators] at hop
      | number value' =>
          obtain rfl : value = value' := by simpa [tokens] using h
          rfl
      | group => simp [tokens] at h
  | group body ih =>
      intro second h
      cases second with
      | single hfactor => contradiction
      | binary _ _ hop => simp [Category.operators] at hop
      | number => simp [tokens] at h
      | group body' =>
          have hbody : body.tokens = body'.tokens := by simpa [tokens] using h
          rw [ih hbody]

end Derivation

end InfixArithmetic
