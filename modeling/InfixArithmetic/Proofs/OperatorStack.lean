import InfixArithmetic.Failure
import InfixArithmetic.Proofs.Grammar.Place

/-!
# The operator-stack machine

The machine reads tokens from left to right and calls nothing: operators whose right operand is not
complete wait on a stack, and a marker stands for each open group.  `Machine.step?` is what it does
with a token it can use and `Machine.halt` what it does in front of one it cannot.
-/

namespace InfixArithmetic

open Operator (loosest)

/-! ## The stack -/

/-- An operator waits on top of its left operand. -/
inductive Entry where
  | marker
  | pending (lhs : Float) (op : Operator)
  deriving DecidableEq, Repr

abbrev Stack := List Entry

/-- How many groups are open. -/
def Stack.opened : Stack → Nat
  | [] => 0
  | .marker :: stack => opened stack + 1
  | .pending _ _ :: stack => opened stack

structure Reduction where
  value : Float
  stack : Stack
  folds : List Fold
  deriving DecidableEq, Repr

def Reduction.cons (fold : Fold) (reduction : Reduction) : Reduction :=
  { reduction with folds := fold :: reduction.folds }

/-- Applies the operators above the nearest marker that bind at least as tightly as the level, each
to what those above it came to. -/
def Stack.reduce (level : Nat) (rhs : Float) : Stack → Reduction
  | .pending lhs op :: stack =>
      if level ≤ op.level then (reduce level (op.apply lhs rhs) stack).cons ⟨lhs, op, rhs⟩
      else ⟨rhs, .pending lhs op :: stack, []⟩
  | stack => ⟨rhs, stack, []⟩

/-- No operator above the nearest marker binds as tightly as the level. -/
def Stack.Below (level : Nat) : Stack → Prop
  | .pending _ op :: _ => op.level < level
  | _ => True

namespace Stack

theorem Below.of_le {level bound : Nat} {stack : Stack} (h : Below level stack)
    (hle : level ≤ bound) : Below bound stack := by
  cases stack with
  | nil => trivial
  | cons entry stack =>
      cases entry with
      | marker => trivial
      | pending lhs op => exact Nat.lt_of_lt_of_le h hle

theorem reduce_pending {level : Nat} {op : Operator} (h : level ≤ op.level) (lhs rhs : Float)
    (stack : Stack) :
    reduce level rhs (.pending lhs op :: stack) =
      (reduce level (op.apply lhs rhs) stack).cons ⟨lhs, op, rhs⟩ := by
  rw [reduce, if_pos h]

theorem Below.reduce_eq {level : Nat} {stack : Stack} (h : Below level stack) (rhs : Float) :
    reduce level rhs stack = ⟨rhs, stack, []⟩ := by
  cases stack with
  | nil => rfl
  | cons entry stack =>
      cases entry with
      | marker => rfl
      | pending lhs op => rw [reduce, if_neg (Nat.not_le.2 h)]

theorem opened_reduce (level : Nat) (rhs : Float) (stack : Stack) :
    (reduce level rhs stack).stack.opened = stack.opened := by
  fun_induction reduce level rhs stack with
  | case1 rhs lhs op stack h ih => exact ih
  | case2 => rfl
  | case3 => rfl

/-- Every operator binds as tightly as the loosest level, so only a marker stops the reduction. -/
theorem reduce_loosest_cases (rhs : Float) (stack : Stack) :
    (reduce loosest rhs stack).stack = [] ∧ stack.opened = 0 ∨
      ∃ rest : Stack, (reduce loosest rhs stack).stack = .marker :: rest ∧
        stack.opened = rest.opened + 1 := by
  induction stack generalizing rhs with
  | nil => exact .inl ⟨rfl, rfl⟩
  | cons entry stack ih =>
      cases entry with
      | marker => exact .inr ⟨stack, rfl, rfl⟩
      | pending lhs op =>
          rw [reduce_pending op.loosest_le_level]
          exact ih (op.apply lhs rhs)

end Stack

/-! ## The machine -/

/-- The outcome of reading, how many tokens were passed, and the folds made on the way. -/
structure Reading where
  outcome : Except EvalError Float
  passed : Nat
  folds : List Fold

namespace Reading

def after (passed : Nat) (folds : List Fold) (reading : Reading) : Reading :=
  { reading with passed := passed + reading.passed, folds := folds ++ reading.folds }

@[simp] theorem after_zero_nil (reading : Reading) : reading.after 0 [] = reading := by
  simp [after]

theorem after_after (passed more : Nat) (folds later : List Fold) (reading : Reading) :
    (reading.after more later).after passed folds =
      reading.after (passed + more) (folds ++ later) := by
  simp [after, Nat.add_assoc]

end Reading

/-- Where an operator is wanted, a value is on top of the stack. -/
inductive Machine where
  | operand (stack : Stack)
  | operator (value : Float) (stack : Stack)
  deriving DecidableEq, Repr

namespace Machine

/-- The state behind a token that can be used, and the folds before it. -/
def step? (limit : UInt64) : Machine → Token → Option (Machine × List Fold)
  | operand stack, .number value => some (operator value stack, [])
  | operand stack, .delimiter .left =>
      if stack.opened < limit.toNat then some (operand (.marker :: stack), []) else none
  | operator value stack, .operator op =>
      let reduction := stack.reduce op.level value
      some (operand (.pending reduction.value op :: reduction.stack), reduction.folds)
  | operator value stack, .delimiter .right =>
      let reduction := stack.reduce loosest value
      match reduction.stack with
      | .marker :: rest => some (operator reduction.value rest, reduction.folds)
      | _ => none
  | _, _ => none

/-- In front of a token that cannot be used: it is passed where an operand is wanted, and the
operators of the innermost group are applied where an operator is. -/
def halt (limit : UInt64) : Machine → Token → Reading
  | operand _, token =>
      ⟨.error (if token = .delimiter .left then .maxDepthExceeded limit else
        .unexpectedToken token), 1, []⟩
  | operator value stack, _ =>
      let reduction := stack.reduce loosest value
      match reduction.stack with
      | [] => ⟨.ok reduction.value, 0, reduction.folds⟩
      | _ => ⟨.error .mismatchedParentheses, 0, reduction.folds⟩

/-- Behind the last token the text goes on with end tokens, none of which can be used. -/
def run (limit : UInt64) : Machine → List Token → Reading
  | machine, [] => machine.halt limit .eol
  | machine, token :: tokens =>
      match machine.step? limit token with
      | some (next, folds) => (run limit next tokens).after 1 folds
      | none => machine.halt limit token

theorem step?_eol (limit : UInt64) (machine : Machine) : machine.step? limit .eol = none := by
  cases machine <;> rfl

theorem run_cons_of_step? {limit : UInt64} {machine next : Machine} {token : Token}
    {folds : List Fold} (h : machine.step? limit token = some (next, folds)) (tokens : List Token) :
    machine.run limit (token :: tokens) = (next.run limit tokens).after 1 folds := by
  rw [run, h]

theorem run_of_step?_eq_none {limit : UInt64} {machine : Machine} {tokens : List Token}
    (h : machine.step? limit (tokens.head?.getD .eol) = none) :
    machine.run limit tokens = machine.halt limit (tokens.head?.getD .eol) := by
  cases tokens with
  | nil => rfl
  | cons token tokens =>
      have hstep : machine.step? limit token = none := h
      rw [run, hstep]
      rfl

/-! ## Tokens passed -/

theorem passed_halt_operator (limit : UInt64) (value : Float) (stack : Stack) (token : Token) :
    ((operator value stack).halt limit token).passed = 0 := by
  simp only [halt]
  split <;> rfl

theorem passed_halt_le (limit : UInt64) (machine : Machine) (token : Token) :
    (machine.halt limit token).passed ≤ 1 := by
  cases machine with
  | operand stack => exact Nat.le_refl 1
  | operator value stack =>
      rw [passed_halt_operator]
      exact Nat.zero_le 1

/-- Where an operand is wanted the token in front is passed, even if it cannot be used. -/
theorem passed_run_operand_pos (limit : UInt64) (stack : Stack) (tokens : List Token) :
    0 < ((operand stack).run limit tokens).passed := by
  cases tokens with
  | nil => exact Nat.one_pos
  | cons token tokens =>
      rw [run]
      split
      · simp only [Reading.after]
        omega
      · exact Nat.one_pos

/-! ## Reduction commutes with reading -/

/-- An operator on top of the stack may as well be applied before the next token is looked at,
unless that token is an operator that binds more tightly. -/
theorem run_pending {limit : UInt64} {lhs rhs : Float} {op : Operator} {stack : Stack}
    {tokens : List Token}
    (h : ∀ next, tokens.head?.getD .eol = .operator next → next.level ≤ op.level) :
    (operator rhs (.pending lhs op :: stack)).run limit tokens =
      ((operator (op.apply lhs rhs) stack).run limit tokens).after 0 [⟨lhs, op, rhs⟩] := by
  have hloosest := Stack.reduce_pending op.loosest_le_level lhs rhs stack
  have hhalt : ∀ token, (operator rhs (.pending lhs op :: stack)).halt limit token =
      ((operator (op.apply lhs rhs) stack).halt limit token).after 0 [⟨lhs, op, rhs⟩] := by
    intro token
    simp only [halt, hloosest]
    simp only [Reduction.cons]
    cases (stack.reduce loosest (op.apply lhs rhs)).stack <;> rfl
  cases tokens with
  | nil => exact hhalt .eol
  | cons token tokens =>
      cases token with
      | operator next =>
          have hlevel : next.level ≤ op.level := h next rfl
          simp only [run, step?, Stack.reduce_pending hlevel lhs rhs stack, Reduction.cons,
            Reading.after_after]
          simp
      | delimiter side =>
          cases side with
          | left => exact hhalt (.delimiter .left)
          | right =>
              simp only [run, step?, hloosest, Reduction.cons]
              rcases stack.reduce_loosest_cases (op.apply lhs rhs) with ⟨hnil, -⟩ | ⟨rest, hrest, -⟩
              · simp only [hnil]
                exact hhalt (.delimiter .right)
              · simp only [hrest, Reading.after_after]
                simp
      | number value => exact hhalt (.number value)
      | eol => exact hhalt .eol

/-! ## The place of a machine -/

def place : Machine → Place
  | operand stack => .operand stack.opened
  | operator _ stack => .operator stack.opened

theorem map_place_step? (limit : UInt64) (machine : Machine) (token : Token) :
    (machine.step? limit token).map (fun next => next.1.place) =
      machine.place.step? limit.toNat token := by
  cases machine with
  | operand stack =>
      cases token with
      | delimiter side =>
          cases side with
          | left =>
              simp only [step?, place, Place.step?]
              split <;> rfl
          | right => rfl
      | number | operator | eol => rfl
  | operator value stack =>
      cases token with
      | operator op => simp [step?, place, Place.step?, Stack.opened, Stack.opened_reduce]
      | delimiter side =>
          cases side with
          | left => rfl
          | right =>
              simp only [step?, place]
              rcases stack.reduce_loosest_cases value with ⟨hnil, hopened⟩ | ⟨rest, hrest, hopened⟩
              · simp only [hnil, hopened]
                rfl
              · simp only [hrest, hopened]
                rfl
      | number | eol => rfl

theorem step?_eq_none_iff {limit : UInt64} {machine : Machine} {token : Token} :
    machine.step? limit token = none ↔ machine.place.step? limit.toNat token = none := by
  rw [← map_place_step?, Option.map_eq_none_iff]

end Machine

end InfixArithmetic
