import InfixArithmetic.Proofs.Grammar.ViablePrefix

/-!
# Groups that are nested too deep

A lower limit never lets more tokens be read, and the only tokens it takes away are opening
parentheses.  Main statement: `Session.outcome_evaluate_of_remaining_eq`, an expression in front has
its value unless its groups are nested deeper than the limit, which is then what the error says.
-/

namespace InfixArithmetic

/-! ## Places under two limits -/

namespace Place

variable {limit bound : Nat} {place next : Place}

theorem step?_of_le {token : Token} (hle : limit ≤ bound)
    (h : place.step? limit token = some next) : place.step? bound token = some next := by
  rw [step?_eq_some_iff] at h ⊢
  cases h with
  | number => exact .number
  | left hlt => exact .left (Nat.lt_of_lt_of_le hlt hle)
  | operator => exact .operator
  | right => exact .right

theorem run?_of_le {tokens : List Token} (hle : limit ≤ bound)
    (h : place.run? limit tokens = some next) : place.run? bound tokens = some next := by
  induction tokens generalizing place with
  | nil => exact h
  | cons token tokens ih =>
      rw [run?] at h
      obtain ⟨mid, hmid, hrest⟩ := Option.bind_eq_some_iff.1 h
      rw [run?_cons (step?_of_le hle hmid)]
      exact ih hrest

theorem exists_operand_of_step?_eq_none {token : Token} (h : place.step? limit token = none)
    (hbound : place.step? bound token = some next) :
    token = .delimiter .left ∧ ∃ opened, place = operand opened := by
  rw [step?_eq_some_iff] at hbound
  cases hbound with
  | left => exact ⟨rfl, _, rfl⟩
  | number | operator | right => contradiction

end Place

theorem Derivation.nesting_le_of_run?_tokens {category : Category} (tree : Derivation category)
    {limit opened : Nat} {place : Place} (hopened : opened ≤ limit)
    (hrun : (Place.operand opened).run? limit tree.tokens = some place) :
    opened + tree.nesting ≤ limit := by
  induction tree generalizing opened place with
  | single _ only ih => exact ih hopened hrun
  | binary lhs op _ rhs ihLhs ihRhs =>
      rw [tokens, Place.run?_append] at hrun
      obtain ⟨mid, hlhs, hrest⟩ := Option.bind_eq_some_iff.1 hrun
      have hlhsLe := ihLhs hopened hlhs
      rw [lhs.run?_tokens hlhsLe] at hlhs
      obtain rfl := Option.some.inj hlhs
      rw [Place.run?_cons rfl] at hrest
      have hrhsLe := ihRhs hopened hrest
      simp only [nesting]
      omega
  | number value => exact hopened
  | group body ih =>
      rcases Nat.lt_or_ge opened limit with hlt | hge
      · rw [tokens, List.cons_append, Place.run?_cons (Place.step?_left_of_lt hlt),
          Place.run?_append] at hrun
        obtain ⟨mid, hbody, -⟩ := Option.bind_eq_some_iff.1 hrun
        have hle := ih hlt hbody
        simp only [nesting]
        omega
      · rw [tokens, List.cons_append, Place.run?, Place.step?_left_of_le hge] at hrun
        contradiction

/-! ## Evaluation of an expression in front -/

theorem Session.outcome_evaluate_of_remaining_eq {session : Session} (hdepth : session.depth = 0)
    {tree : Derivation .expression} {rest : List Token}
    (hremaining : session.remaining = tree.tokens ++ rest)
    (hfollow : ∀ op, rest.head?.getD .eol ≠ .operator op) :
    session.evaluate.outcome =
      if tree.nesting ≤ session.limit then .ok tree.value
      else .error (.maxDepthExceeded session.options.maxDepth) := by
  by_cases hnesting : tree.nesting ≤ session.limit
  · have hpasses := Passes.of_remaining_eq hremaining
    have hrest : (session.skip tree.tokens.length).remaining = rest :=
      List.append_cancel_left (hpasses.remaining_eq.symm.trans hremaining)
    have hroom : tree.nesting ≤ session.room := by
      rw [room_of_depth_eq_zero hdepth]
      exact hnesting
    rw [if_pos hnesting, evaluate_eq_of_passes hpasses hroom]
    intro op
    rw [peek_eq_head?_remaining, hrest]
    exact hfollow op
  · rw [if_neg hnesting]
    obtain ⟨passed, place, stop, hpasses, hrun, hstuck, hanswer⟩ :=
      session.exists_stop_evaluate hdepth
    -- The whole expression cannot be passed, so evaluation stops at one of its tokens.
    have hshort : ∀ more, passed ≠ tree.tokens ++ more := by
      rintro more rfl
      rw [Place.run?_append] at hrun
      obtain ⟨mid, htree, -⟩ := Option.bind_eq_some_iff.1 hrun
      have hle := tree.nesting_le_of_run?_tokens (Nat.zero_le _) htree
      omega
    have htokens := hpasses.remaining_eq.symm.trans hremaining
    rcases List.append_eq_append_iff.1 htokens with ⟨more, hmore, hstop⟩ | ⟨more, hmore, -⟩
    · cases more with
      | nil => exact absurd (by simp [hmore]) (hshort [])
      | cons token more =>
          have hpeek : stop.peek = token := by
            rw [peek_eq_head?_remaining, hstop]
            rfl
          have hlarge : (Place.operand 0).run? tree.nesting tree.tokens = some (.operator 0) :=
            tree.run?_tokens (by omega)
          rw [hmore, Place.run?_append_of_eq_some (Place.run?_of_le (by omega) hrun),
            Place.run?] at hlarge
          obtain ⟨next, hnext, -⟩ := Option.bind_eq_some_iff.1 hlarge
          rw [hpeek] at hstuck
          obtain ⟨rfl, opened, rfl⟩ := Place.exists_operand_of_step?_eq_none hstuck hnext
          rw [hanswer.1, if_pos hpeek]
    · exact absurd hmore (hshort more)

end InfixArithmetic
