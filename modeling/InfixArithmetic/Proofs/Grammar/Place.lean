import InfixArithmetic.Proofs.Grammar

/-!
# Places in an expression

When tokens are read from left to right, what may come next hangs only on whether an operand or an
operator is wanted and on how many groups are open.  A derivation leads from wanting an operand to
wanting an operator with the same groups open, so that only an operator can make it longer.
-/

namespace InfixArithmetic

inductive Place where
  | operand (opened : Nat)
  | operator (opened : Nat)
  deriving DecidableEq, Repr

namespace Place

/-- The place behind a token, if the token is wanted where at most `limit` groups may be open. -/
def step? (limit : Nat) : Place → Token → Option Place
  | operand opened, .number _ => some (operator opened)
  | operand opened, .delimiter .left =>
      if opened < limit then some (operand (opened + 1)) else none
  | operator opened, .operator _ => some (operand opened)
  | operator (opened + 1), .delimiter .right => some (operator opened)
  | _, _ => none

theorem step?_left_of_lt {limit opened : Nat} (h : opened < limit) :
    (operand opened).step? limit (.delimiter .left) = some (operand (opened + 1)) := if_pos h

theorem step?_left_of_le {limit opened : Nat} (h : limit ≤ opened) :
    (operand opened).step? limit (.delimiter .left) = none := if_neg (Nat.not_lt.2 h)

theorem step?_operand_eq_none {limit opened : Nat} {token : Token}
    (hnumber : ∀ value, token ≠ .number value) (hleft : token ≠ .delimiter .left) :
    (operand opened).step? limit token = none := by
  cases token with
  | number value => exact absurd rfl (hnumber value)
  | delimiter side =>
      cases side with
      | left => exact absurd rfl hleft
      | right => rfl
  | operator | eol => rfl

theorem step?_operator_eq_none {limit opened : Nat} {token : Token}
    (hoperator : ∀ op, token ≠ .operator op)
    (hright : opened = 0 ∨ token ≠ .delimiter .right) :
    (operator opened).step? limit token = none := by
  cases token with
  | operator op => exact absurd rfl (hoperator op)
  | delimiter side =>
      cases side with
      | left => rfl
      | right =>
          rcases hright with rfl | hright
          · rfl
          · exact absurd rfl hright
  | number | eol => rfl

/-- The tokens that are wanted, one rule for each. -/
inductive Step (limit : Nat) : Place → Token → Place → Prop
  | number {opened : Nat} {value : Float} :
      Step limit (operand opened) (.number value) (operator opened)
  | left {opened : Nat} (h : opened < limit) :
      Step limit (operand opened) (.delimiter .left) (operand (opened + 1))
  | operator {opened : Nat} {op : Operator} :
      Step limit (operator opened) (.operator op) (operand opened)
  | right {opened : Nat} :
      Step limit (operator (opened + 1)) (.delimiter .right) (operator opened)

theorem step?_eq_some_iff {limit : Nat} {place next : Place} {token : Token} :
    place.step? limit token = some next ↔ Step limit place token next := by
  constructor
  · intro h
    cases place with
    | operand opened =>
        cases token with
        | number value =>
            cases h
            exact .number
        | delimiter side =>
            cases side with
            | left =>
                obtain ⟨hlt, hnext⟩ := Option.ite_none_right_eq_some.1 h
                cases hnext
                exact .left hlt
            | right => contradiction
        | operator | eol => contradiction
    | operator opened =>
        cases token with
        | operator op =>
            cases h
            exact .operator
        | delimiter side =>
            cases side with
            | left => contradiction
            | right =>
                cases opened with
                | zero => contradiction
                | succ opened =>
                    cases h
                    exact .right
        | number | eol => contradiction
  · intro h
    cases h with
    | left hlt => exact step?_left_of_lt hlt
    | number | operator | right => rfl

def run? (limit : Nat) : Place → List Token → Option Place
  | place, [] => some place
  | place, token :: tokens => (place.step? limit token).bind fun next => run? limit next tokens

@[simp] theorem run?_nil (limit : Nat) (place : Place) : place.run? limit [] = some place := rfl

theorem run?_cons {limit : Nat} {place next : Place} {token : Token}
    (h : place.step? limit token = some next) (tokens : List Token) :
    place.run? limit (token :: tokens) = next.run? limit tokens := by
  rw [run?, h, Option.bind_some]

theorem run?_append (limit : Nat) (place : Place) (first second : List Token) :
    place.run? limit (first ++ second) =
      (place.run? limit first).bind fun next => next.run? limit second := by
  induction first generalizing place with
  | nil => rfl
  | cons token first ih =>
      simp only [List.cons_append, run?, Option.bind_assoc]
      congr 1
      funext next
      exact ih next

theorem run?_append_of_eq_some {limit : Nat} {place next : Place} {first : List Token}
    (h : place.run? limit first = some next) (second : List Token) :
    place.run? limit (first ++ second) = next.run? limit second := by
  rw [run?_append, h, Option.bind_some]

theorem run?_singleton (limit : Nat) (place : Place) (token : Token) :
    place.run? limit [token] = place.step? limit token := by
  simp [run?]

end Place

namespace Derivation

variable {category : Category}

theorem run?_tokens (tree : Derivation category) {limit opened : Nat}
    (h : opened + tree.nesting ≤ limit) :
    (Place.operand opened).run? limit tree.tokens = some (.operator opened) := by
  induction tree generalizing opened with
  | single _ only ih => exact ih h
  | binary lhs op _ rhs ihLhs ihRhs =>
      simp only [nesting] at h
      rw [tokens, Place.run?_append_of_eq_some (ihLhs (by omega)), Place.run?_cons rfl]
      exact ihRhs (by omega)
  | number value => rfl
  | group body ih =>
      simp only [nesting] at h
      rw [tokens, List.cons_append, Place.run?_cons (Place.step?_left_of_lt (by omega)),
        Place.run?_append_of_eq_some (ih (by omega)), Place.run?_singleton]
      rfl

/-- Only an operator can follow a derivation inside a longer one. -/
theorem eq_nil_of_tokens_eq_append {first second : Derivation category} {more rest : List Token}
    (hmore : second.tokens = first.tokens ++ more)
    (hhead : ∀ op, (more ++ rest).head?.getD .eol ≠ .operator op) : more = [] := by
  have hfirst : (Place.operand 0).run? (max first.nesting second.nesting) first.tokens =
      some (.operator 0) := first.run?_tokens (by omega)
  have hsecond : (Place.operand 0).run? (max first.nesting second.nesting) second.tokens =
      some (.operator 0) := second.run?_tokens (by omega)
  rw [hmore, Place.run?_append_of_eq_some hfirst] at hsecond
  cases more with
  | nil => rfl
  | cons token more =>
      cases token with
      | operator op => exact absurd rfl (hhead op)
      | number | delimiter | eol => simp [Place.run?, Place.step?] at hsecond

/-- Two derivations in front of the same tokens are the same, unless an operator follows one. -/
theorem eq_of_tokens_append_eq {first second : Derivation category} {rest rest' : List Token}
    (h : first.tokens ++ rest = second.tokens ++ rest')
    (hrest : ∀ op, rest.head?.getD .eol ≠ .operator op)
    (hrest' : ∀ op, rest'.head?.getD .eol ≠ .operator op) : first = second := by
  rcases List.append_eq_append_iff.1 h with ⟨more, hmore, rfl⟩ | ⟨more, hmore, rfl⟩
  · rw [eq_nil_of_tokens_eq_append hmore hrest, List.append_nil] at hmore
    exact tokens_injective hmore.symm
  · rw [eq_nil_of_tokens_eq_append hmore hrest', List.append_nil] at hmore
    exact tokens_injective hmore

end Derivation

end InfixArithmetic
