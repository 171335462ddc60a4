import InfixArithmetic.Proofs.Grammar.Nesting

/-!
# Openings along the tokens

Where groups open is told by the tokens alone: an opening parenthesis counts where an operand is
wanted, and a closing one gives back what it took.  `Place.highest` is the number of groups that are
open at once, and `Place.exists_opensAt_of_lt_highest` says that every smaller number of open groups
is one in which another group opens.
-/

namespace InfixArithmetic

namespace Place

def opened : Place → Nat
  | operand opened | operator opened => opened

/-- Behind `count` tokens that are wanted stands an opening parenthesis, where an operand is wanted
while `depth` groups are open. -/
inductive OpensAt (limit depth : Nat) : Place → List Token → Nat → Prop
  | here {tokens : List Token} : OpensAt limit depth (operand depth) (.delimiter .left :: tokens) 0
  | there {place next : Place} {token : Token} {tokens : List Token} {count : Nat}
      (hstep : place.step? limit token = some next) (h : OpensAt limit depth next tokens count) :
      OpensAt limit depth place (token :: tokens) (count + 1)

variable {limit bound depth : Nat} {place next : Place} {token : Token} {tokens : List Token}

theorem le_of_step?_left_eq_none
    (h : (operand depth).step? limit (.delimiter .left) = none) : limit ≤ depth := by
  refine Nat.le_of_not_lt fun hlt => ?_
  rw [step?_left_of_lt hlt] at h
  contradiction

theorem opened_le_of_step? (h : place.step? limit token = some next) (hle : place.opened ≤ limit) :
    next.opened ≤ limit := by
  rw [step?_eq_some_iff] at h
  cases h with
  | left hlt => exact hlt
  | number | operator => exact hle
  | right => exact Nat.le_of_succ_le hle

theorem not_opensAt_nil {count : Nat} : ¬ OpensAt limit depth place [] count := by
  intro h
  cases h

theorem OpensAt.of_cons {count : Nat} (h : OpensAt limit depth place (token :: tokens) count) :
    token = .delimiter .left ∧ place = operand depth ∨
      ∃ next rest, place.step? limit token = some next ∧ OpensAt limit depth next tokens rest := by
  cases h with
  | here => exact .inl ⟨rfl, rfl⟩
  | there hstep h => exact .inr ⟨_, _, hstep, h⟩

theorem OpensAt.lt_length {count : Nat} (h : OpensAt limit depth place tokens count) :
    count < tokens.length := by
  induction h with
  | here => exact Nat.succ_pos _
  | there _ _ ih => exact Nat.succ_lt_succ ih

theorem OpensAt.of_le {count : Nat} (hle : limit ≤ bound)
    (h : OpensAt limit depth place tokens count) : OpensAt bound depth place tokens count := by
  induction h with
  | here => exact .here
  | there hstep _ ih => exact .there (step?_of_le hle hstep) ih

/-- No opening with the limit used up can come before one that the walk under the limit reaches. -/
theorem OpensAt.count_le {count other : Nat} (h : OpensAt limit limit place tokens count)
    (hle : limit ≤ bound) (hother : OpensAt bound limit place tokens other) : count ≤ other := by
  induction h generalizing other with
  | here => exact Nat.zero_le _
  | there hstep _ ih =>
      cases hother with
      | here =>
          rw [step?_left_of_le (Nat.le_refl limit)] at hstep
          contradiction
      | there hstep' hother =>
          rw [step?_of_le hle hstep] at hstep'
          cases hstep'
          exact Nat.succ_le_succ (ih hother)

/-- The greatest number of groups that are open at once along the tokens that are wanted. -/
def highest : Place → List Token → Nat
  | place, [] => place.opened
  | place, token :: tokens =>
      match place.step? (place.opened + 1) token with
      | some next => max place.opened (highest next tokens)
      | none => place.opened

theorem opened_le_highest (place : Place) (tokens : List Token) :
    place.opened ≤ place.highest tokens := by
  cases tokens with
  | nil => exact Nat.le_refl _
  | cons token tokens =>
      rw [highest]
      split
      · exact Nat.le_max_left _ _
      · exact Nat.le_refl _

/-- Without a limit, every step that some limit admits can be made. -/
theorem step?_opened_succ (h : place.step? limit token = some next) :
    place.step? (place.opened + 1) token = some next := by
  rw [step?_eq_some_iff] at h ⊢
  cases h with
  | number => exact .number
  | left _ => exact .left (Nat.lt_succ_self _)
  | operator => exact .operator
  | right => exact .right

theorem OpensAt.lt_highest {count : Nat} (h : OpensAt limit depth place tokens count) :
    depth < place.highest tokens := by
  induction h with
  | here =>
      rw [highest, opened, step?_left_of_lt (Nat.lt_succ_self depth)]
      exact Nat.lt_of_lt_of_le (opened_le_highest (operand (depth + 1)) _) (Nat.le_max_right _ _)
  | there hstep _ ih =>
      rw [highest, step?_opened_succ hstep]
      exact Nat.lt_of_lt_of_le ih (Nat.le_max_right _ _)

theorem exists_opensAt_of_lt_highest (hle : place.opened ≤ limit)
    (h : limit < place.highest tokens) : ∃ count, OpensAt limit limit place tokens count := by
  induction tokens generalizing place with
  | nil => exact absurd hle (Nat.not_le.2 h)
  | cons token tokens ih =>
      rw [highest] at h
      cases hfree : place.step? (place.opened + 1) token with
      | none =>
          rw [hfree] at h
          exact absurd hle (Nat.not_le.2 h)
      | some next =>
          rw [hfree] at h
          have hnext : limit < next.highest tokens := by
            rcases Nat.lt_or_ge limit (next.highest tokens) with hlt | hge
            · exact hlt
            · exact absurd (Nat.max_le.2 ⟨hle, hge⟩) (Nat.not_le.2 h)
          -- The token is wanted, so if the limit does not admit it the limit is used up here.
          cases hstep : place.step? limit token with
          | none =>
              obtain ⟨rfl, depth, rfl⟩ := exists_operand_of_step?_eq_none hstep hfree
              obtain rfl : depth = limit := Nat.le_antisymm hle (le_of_step?_left_eq_none hstep)
              exact ⟨0, .here⟩
          | some other =>
              have hsame : other = next := by
                rw [step?_opened_succ hstep] at hfree
                exact Option.some.inj hfree
              subst hsame
              obtain ⟨count, hcount⟩ := ih (opened_le_of_step? hstep hle) hnext
              exact ⟨count + 1, .there hstep hcount⟩

/-- Along an expression the groups of its operands do not add up. -/
theorem highest_tokens_append {category : Category} (tree : Derivation category) (depth : Nat)
    (rest : List Token) :
    (operand depth).highest (tree.tokens ++ rest) =
      max (depth + tree.nesting) ((operator depth).highest rest) := by
  induction tree generalizing depth rest with
  | single _ only ih => exact ih depth rest
  | binary lhs op _ rhs ihLhs ihRhs =>
      have hoperator : (operator depth).highest (.operator op :: (rhs.tokens ++ rest)) =
          max depth ((operand depth).highest (rhs.tokens ++ rest)) := rfl
      rw [Derivation.tokens, List.append_assoc, List.cons_append, ihLhs, hoperator, ihRhs,
        Derivation.nesting]
      omega
  | number value =>
      have hnumber : (operand depth).highest (.number value :: rest) =
          max depth ((operator depth).highest rest) := rfl
      exact hnumber
  | group body ih =>
      have hleft : ∀ tokens, (operand depth).highest (.delimiter .left :: tokens) =
          max depth ((operand (depth + 1)).highest tokens) := by
        intro tokens
        rw [highest, opened, step?_left_of_lt (Nat.lt_succ_self depth)]
      have hright : (operator (depth + 1)).highest (.delimiter .right :: rest) =
          max (depth + 1) ((operator depth).highest rest) := rfl
      rw [Derivation.tokens, List.cons_append, List.cons_append, List.append_assoc,
        List.singleton_append, hleft, ih, hright, Derivation.nesting]
      omega

theorem highest_of_stuck (h : place.step? (place.opened + 1) (tokens.head?.getD .eol) = none) :
    place.highest tokens = place.opened := by
  cases tokens with
  | nil => rfl
  | cons token tokens =>
      have hstep : place.step? (place.opened + 1) token = none := h
      rw [highest, hstep]

/-- No operator follows, so the groups of the expression are all that open. -/
theorem highest_tokens_append_of_follows {category : Category} (tree : Derivation category)
    {rest : List Token} (h : ∀ op, rest.head? ≠ some (.operator op)) :
    (operand 0).highest (tree.tokens ++ rest) = tree.nesting := by
  have hstuck : (operator 0).step? 1 (rest.head?.getD .eol) = none := by
    apply step?_operator_eq_none ?_ (.inl rfl)
    intro op hop
    cases rest with
    | nil => contradiction
    | cons token rest => exact h op (congrArg some hop)
  have hafter : (operator 0).highest rest = 0 := highest_of_stuck hstuck
  rw [highest_tokens_append, hafter, Nat.zero_add, Nat.max_zero]

end Place

end InfixArithmetic
