/-!
# Binary operators

The four operators of an expression, the characters that write them, how tightly they bind, and
what they compute.  An operator is read from exactly its own character: nothing is trimmed.
-/

namespace InfixArithmetic

inductive Operator where
  | add
  | sub
  | mul
  | div
  deriving DecidableEq, Repr

structure UnknownOperator where
  text : String
  deriving DecidableEq, Repr

def UnknownOperator.message (failure : UnknownOperator) : String :=
  "Unknown binary operator: " ++ failure.text

namespace Operator

/-! ## Written form -/

def symbol : Operator → Char
  | add => '+'
  | sub => '-'
  | mul => '*'
  | div => '/'

def ofChar? : Char → Option Operator
  | '+' => some add
  | '-' => some sub
  | '*' => some mul
  | '/' => some div
  | _ => none

def ofString (text : String) : Except UnknownOperator Operator :=
  match text.toList with
  | [char] =>
      match ofChar? char with
      | some op => .ok op
      | none => .error ⟨text⟩
  | _ => .error ⟨text⟩

instance : ToString Operator where
  toString op := op.symbol.toString

@[simp] theorem ofChar?_symbol (op : Operator) : ofChar? op.symbol = some op := by
  cases op <;> rfl

theorem ofChar?_eq_some_iff {char : Char} {op : Operator} :
    ofChar? char = some op ↔ char = op.symbol := by
  constructor
  · intro h
    unfold ofChar? at h
    split at h <;> simp_all [symbol] <;> subst op <;> rfl
  · rintro rfl
    exact ofChar?_symbol op

/-! ## Precedence -/

def level : Operator → Nat
  | add | sub => 1
  | mul | div => 2

/-- The level at which an expression starts. -/
def loosest : Nat := 1

/-- The level whose operands are numbers and groups. -/
def tightest : Nat := 2

theorem loosest_le_level (op : Operator) : loosest ≤ op.level := by
  cases op <;> decide

theorem level_le_tightest (op : Operator) : op.level ≤ tightest := by
  cases op <;> decide

/-! ## Meaning -/

/-- Binary64 arithmetic: a division by zero gives an infinity or NaN, never an error. -/
def apply : Operator → Float → Float → Float
  | add, lhs, rhs => lhs + rhs
  | sub, lhs, rhs => lhs - rhs
  | mul, lhs, rhs => lhs * rhs
  | div, lhs, rhs => lhs / rhs

end Operator

end InfixArithmetic
