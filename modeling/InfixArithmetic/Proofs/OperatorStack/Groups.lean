import InfixArithmetic.Proofs.EndMarker
import InfixArithmetic.Proofs.OperatorStack.Limit

/-!
# Groups and their values

Reading a group comes to its value on the same stack, so what is read behind it cannot tell the
group from the number.  Main statement: `group_interchangeable_with_value`, a group may be replaced
by its value among any tokens, and all that changes are the folds of the group itself.
-/

namespace InfixArithmetic

/-! ## Reading some tokens and then others -/

namespace Machine

/-- Reading ends at one of the tokens in front, whatever follows them, or goes on behind them. -/
theorem run_append_cases (limit : UInt64) (machine : Machine)
    (hopened : machine.place.opened ≤ limit.toNat) (front : List Token) :
    (∃ reading : Reading, reading.passed ≤ front.length ∧
      ∀ rest, machine.run limit (front ++ rest) = reading) ∨
    ∃ (next : Machine) (folds : List Fold), next.place.opened ≤ limit.toNat ∧
      ∀ rest, machine.run limit (front ++ rest) =
        (next.run limit rest).after front.length folds := by
  induction front generalizing machine with
  | nil => exact .inr ⟨machine, [], hopened, fun rest => (Reading.after_zero_nil _).symm⟩
  | cons token front ih =>
      cases hstep : machine.step? limit token with
      | none =>
          left
          refine ⟨machine.halt limit token, ?_, fun rest => by rw [List.cons_append, run, hstep]⟩
          exact Nat.le_trans (machine.passed_halt_le limit token) (Nat.succ_le_succ (Nat.zero_le _))
      | some moved =>
          obtain ⟨next, folds⟩ := moved
          have hnext := Place.opened_le_of_step? (place_step?_of_step? hstep) hopened
          have hrun : ∀ rest, machine.run limit (token :: front ++ rest) =
              (next.run limit (front ++ rest)).after 1 folds :=
            fun rest => run_cons_of_step? hstep (front ++ rest)
          rcases ih next hnext with ⟨reading, hpassed, hreading⟩ | ⟨last, more, hlast, hreading⟩
          · left
            refine ⟨reading.after 1 folds, ?_, fun rest => by rw [hrun, hreading]⟩
            simp only [Reading.after, List.length_cons]
            omega
          · right
            refine ⟨last, folds ++ more, hlast, fun rest => ?_⟩
            rw [hrun, hreading, Reading.after_after, Nat.add_comm, List.length_cons]

/-- Where an operator is wanted, a number and an opening parenthesis end the reading alike. -/
theorem run_operator_of_operand {limit : UInt64} {value : Float} {stack : Stack} {token : Token}
    (htoken : (∃ number, token = .number number) ∨ token = .delimiter .left) (rest : List Token) :
    (operator value stack).run limit (token :: rest) =
      (operator value stack).halt limit .eol := by
  rcases htoken with ⟨number, rfl⟩ | rfl <;> rfl

/-- A group whose nesting is admitted comes to its value, on the stack that was there before. -/
theorem run_group {limit : UInt64} {stack : Stack} {body : Derivation .expression}
    (hnesting : stack.opened + (Derivation.group body).nesting ≤ limit.toNat) (rest : List Token) :
    (operand stack).run limit ((Derivation.group body).tokens ++ rest) =
      ((operator body.value stack).run limit rest).after (Derivation.group body).tokens.length
        body.folds := by
  let group := Derivation.group body
  -- An end token closes the tokens, so that passing the group is not passing all of them.
  let start : Session :=
    { tokens := (group.tokens ++ (rest ++ [Token.eol])).toArray
      depth := UInt64.ofNat stack.opened
      options := { maxDepth := limit } }
  have hopened : stack.opened < UInt64.size := Nat.lt_of_le_of_lt (by omega) limit.toNat_lt
  have hdepth : start.depth.toNat = stack.opened := UInt64.toNat_ofNat_of_lt hopened
  have hremaining : start.remaining = group.tokens ++ (rest ++ [.eol]) := by
    simp [start, Cursor.remaining]
  have hpasses := Session.Passes.of_remaining_eq hremaining
  have hroom : group.nesting ≤ start.room := by
    rw [Session.room, hdepth]
    exact Nat.le_sub_of_add_le (Nat.add_comm _ _ ▸ hnesting)
  have hfollow : (start.skip group.tokens.length).LooserThan (Category.factor.level + 1) :=
    fun op _ => Nat.lt_succ_of_le (Nat.le_succ_of_le op.level_le_tightest)
  have hanswers := (group.isRead hpasses hroom hfollow).primary rfl
  obtain ⟨passed, hstop, hrun⟩ := hanswers.matches stack hdepth.symm
  have hpassed : passed = group.tokens.length := by
    have hlength : group.tokens.length < start.left := by
      rw [← start.toCursor.length_remaining, hremaining]
      simp
    have hposition := congrArg (fun session : Session => session.position) hstop
    simp only [Session.skip, Cursor.skip] at hposition
    omega
  have hrest : (start.skip group.tokens.length).remaining = rest ++ [.eol] :=
    List.append_cancel_left (hpasses.remaining_eq.symm.trans hremaining)
  calc
    (operand stack).run limit (group.tokens ++ rest)
    _ = (operand stack).run limit start.remaining := by
      rw [hremaining, ← List.append_assoc, run_append_eol]
    _ = ((operator group.value stack).run limit
          (start.skip group.tokens.length).remaining).after passed group.folds := hrun
    _ = ((operator body.value stack).run limit rest).after group.tokens.length body.folds := by
      rw [hpassed, hrest, run_append_eol]
      rfl

/-- Reading a group where another reading has its value: unless the group is nested too deep, both
end in front of it or go on alike behind it. -/
theorem run_group_cases {limit : UInt64} {machine : Machine}
    (hopened : machine.place.opened ≤ limit.toNat) (front : List Token)
    (body : Derivation .expression) (rest : List Token) :
    let group := Derivation.group body
    let nested := machine.run limit (front ++ (group.tokens ++ rest))
    let flat := machine.run limit (front ++ .number body.value :: rest)
    nested.outcome = .error (.maxDepthExceeded limit) ∨
      nested = flat ∧ nested.passed ≤ front.length ∨
      group.nesting ≤ limit.toNat ∧ ∃ (folds : List Fold) (last : Reading),
        nested = last.after (front.length + group.tokens.length) (folds ++ body.folds) ∧
        flat = last.after (front.length + 1) folds := by
  intro group nested flat
  rcases run_append_cases limit machine hopened front with
    ⟨reading, hpassed, hreading⟩ | ⟨next, folds, hnext, hreading⟩
  · right; left
    have hnested : nested = reading := hreading _
    exact ⟨hnested.trans (hreading _).symm, hnested ▸ hpassed⟩
  · have hnested : nested = (next.run limit (group.tokens ++ rest)).after front.length folds :=
      hreading _
    have hflat : flat = (next.run limit (.number body.value :: rest)).after front.length folds :=
      hreading _
    cases next with
    | operator value stack =>
        right; left
        have hopening : (operator value stack).run limit (group.tokens ++ rest) =
            (operator value stack).halt limit .eol := run_operator_of_operand (.inr rfl) _
        have hnumber : (operator value stack).run limit (.number body.value :: rest) =
            (operator value stack).halt limit .eol :=
          run_operator_of_operand (.inl ⟨body.value, rfl⟩) rest
        rw [hnested, hflat, hopening, hnumber, Reading.after, passed_halt_operator]
        exact ⟨rfl, Nat.le_refl _⟩
    | operand stack =>
        by_cases hnesting : stack.opened + group.nesting ≤ limit.toNat
        · right; right
          refine ⟨by omega, folds, (operator body.value stack).run limit rest, ?_, ?_⟩
          · rw [hnested, run_group hnesting, Reading.after_after]
          · rw [hflat, run_cons_of_step? rfl, Reading.after_after, List.append_nil]
        · left
          have hhighest := Place.highest_tokens_append group stack.opened rest
          rw [hnested]
          apply outcome_run_of_lt_highest_place hnext
          rw [place, hhighest]
          omega

end Machine

/-! ## Sessions -/

theorem Session.position_skip (session : Session) (count : Nat) :
    (session.skip count).position = session.position + min count session.left := rfl

theorem Session.evaluate_group_alone {body : Derivation .expression} {options : Options}
    (hnesting : (Derivation.group body).nesting ≤ options.maxDepth.toNat) :
    let alone : Session := { tokens := (Derivation.group body).tokens.toArray, options }
    alone.evaluate.outcome = .ok body.value ∧ alone.evaluate.folds = body.folds := by
  intro alone
  have hopened : Stack.opened [] + (Derivation.group body).nesting ≤ options.maxDepth.toNat := by
    rwa [Stack.opened, Nat.zero_add]
  have hreading : alone.reading =
      ((Machine.operator body.value []).run options.maxDepth []).after
        (Derivation.group body).tokens.length body.folds := by
    rw [← Machine.run_group hopened]
    simp [reading, alone, Cursor.remaining]
  rw [alone.evaluate_eq_reading rfl, hreading]
  exact ⟨rfl, List.append_nil _⟩

theorem group_interchangeable_with_value (before after : List Token)
    (body : Derivation .expression) (options : Options) :
    let group := (Derivation.group body).tokens
    let nested : Session := { tokens := (before ++ group ++ after).toArray, options }
    let flat : Session := { tokens := (before ++ .number body.value :: after).toArray, options }
    let alone : Session := { tokens := group.toArray, options }
    nested.evaluate.outcome ≠ .error (.maxDepthExceeded options.maxDepth) →
      nested.evaluate.outcome = flat.evaluate.outcome ∧
      (nested.evaluate.session.position ≤ before.length ∧
          flat.evaluate.session.position = nested.evaluate.session.position ∧
          flat.evaluate.folds = nested.evaluate.folds ∨
        before.length + group.length ≤ nested.evaluate.session.position ∧
          before.length + 1 ≤ flat.evaluate.session.position ∧
          nested.evaluate.session.remaining = flat.evaluate.session.remaining ∧
          alone.evaluate.outcome = .ok body.value ∧
          ∃ earlier later, flat.evaluate.folds = earlier ++ later ∧
            nested.evaluate.folds = earlier ++ alone.evaluate.folds ++ later) := by
  intro group nested flat alone hdeep
  have hnested : nested.remaining = before ++ (group ++ after) := by
    simp [nested, Cursor.remaining]
  have hflat : flat.remaining = before ++ .number body.value :: after := by
    simp [flat, Cursor.remaining]
  have hleft : nested.left = before.length + (group.length + after.length) := by
    rw [← nested.toCursor.length_remaining, hnested, List.length_append, List.length_append]
  have hleft' : flat.left = before.length + (after.length + 1) := by
    rw [← flat.toCursor.length_remaining, hflat, List.length_append, List.length_cons]
  have hcases : nested.reading.outcome = .error (.maxDepthExceeded options.maxDepth) ∨
      nested.reading = flat.reading ∧ nested.reading.passed ≤ before.length ∨
      (Derivation.group body).nesting ≤ options.maxDepth.toNat ∧
        ∃ (folds : List Fold) (last : Reading),
          nested.reading = last.after (before.length + group.length) (folds ++ body.folds) ∧
          flat.reading = last.after (before.length + 1) folds := by
    rw [Session.reading, Session.reading, hnested, hflat]
    have hempty : (Machine.operand []).place.opened ≤ options.maxDepth.toNat := Nat.zero_le _
    exact Machine.run_group_cases hempty before body after
  rw [nested.evaluate_eq_reading rfl] at hdeep ⊢
  rw [flat.evaluate_eq_reading rfl]
  rcases hcases with hlimit | ⟨hsame, hpassed⟩ | ⟨hnesting, folds, last, hreading, hreading'⟩
  · exact absurd hlimit hdeep
  · rw [← hsame]
    refine ⟨rfl, .inl ⟨?_, ?_, rfl⟩⟩
    · rw [Session.position_skip, Nat.zero_add]
      exact Nat.le_trans (Nat.min_le_left _ _) hpassed
    · rw [Session.position_skip, Session.position_skip, hleft, hleft',
        Nat.min_eq_left (by omega), Nat.min_eq_left (by omega)]
  · obtain ⟨halone, hfolds⟩ := Session.evaluate_group_alone hnesting
    simp only [Session.position_skip, Session.remaining_skip, hreading, hreading', Reading.after]
    refine ⟨trivial, .inr ⟨by omega, by omega, ?_, halone, folds, last.folds, rfl, ?_⟩⟩
    · simp only [hnested, hflat, Nat.add_assoc, List.drop_length_add_append, Nat.add_comm 1,
        List.drop_succ_cons]
    · rw [hfolds]

/-- In `(2*(3+4)` the outer group stays open, as it does in `(2*7`. -/
theorem sum_in_unclosed_group_interchangeable :
    let before : List Token := [.delimiter .left, .number 2, .operator .mul]
    let group : List Token :=
      [.delimiter .left, .number 3, .operator .add, .number 4, .delimiter .right]
    let after : List Token := [.eol]
    let nested : Session := { tokens := (before ++ group ++ after).toArray }
    let flat : Session := { tokens := (before ++ .number (3 + 4) :: after).toArray }
    nested.evaluate.outcome ≠ .error (.maxDepthExceeded 256) ∧
      flat.evaluate.outcome = .error .mismatchedParentheses ∧
      nested.evaluate.session.remaining = flat.evaluate.session.remaining := by
  intro before group after nested flat
  let body : Derivation .expression :=
    .binary (.single (by decide) (.single (by decide) (.number 3))) .add (by decide)
      (.single (by decide) (.number 4))
  have hnested : nested.evaluate = ⟨.error .mismatchedParentheses, nested.skip 8,
      [⟨3, .add, 4⟩, ⟨2, .mul, 3 + 4⟩]⟩ := nested.evaluate_eq_reading rfl
  have hdeep : nested.evaluate.outcome ≠ .error (.maxDepthExceeded 256) := by
    rw [hnested]
    simp
  obtain ⟨houtcome, hcases⟩ := group_interchangeable_with_value before after body {} hdeep
  refine ⟨hdeep, houtcome.symm.trans (congrArg Evaluation.outcome hnested), ?_⟩
  rcases hcases with ⟨hbefore, -⟩ | ⟨-, -, hremaining, -⟩
  · have hposition : nested.evaluate.session.position = 8 :=
      congrArg (fun evaluation => evaluation.session.position) hnested
    exact absurd (hposition ▸ hbefore) (by decide)
  · exact hremaining

end InfixArithmetic
