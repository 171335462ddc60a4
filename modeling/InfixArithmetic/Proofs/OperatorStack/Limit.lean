import InfixArithmetic.Proofs.Grammar.Openings
import InfixArithmetic.Proofs.OperatorStack.Simulation
import InfixArithmetic.Report
import Mathlib.Order.Bounds.Defs
import Mathlib.Tactic.WLOG

/-!
# Evaluation under two limits

A limit on open groups does nothing until a group opens inside as many as may be open, and then it
ends the evaluation there.  Main statement: `lower_limit_only_cuts`, compared with a higher limit a
lower one changes nothing or cuts the evaluation off at the first such group, and every text has one
limit from which on the limit does not matter.
-/

namespace InfixArithmetic

/-! ## The machine under two limits -/

namespace Machine

variable {limit bound : UInt64} {machine next : Machine} {token : Token} {folds : List Fold}

theorem place_step?_of_step? (h : machine.step? limit token = some (next, folds)) :
    machine.place.step? limit.toNat token = some next.place := by
  rw [← map_place_step?, h]
  rfl

/-- The limit is used up and another group opens. -/
def Full (machine : Machine) (limit : UInt64) (token : Token) : Prop :=
  token = .delimiter .left ∧ machine.place = .operand limit.toNat

/-- A limit that is not used up admits what a higher one does. -/
theorem step?_eq_of_not_full (hle : limit ≤ bound) (hopened : machine.place.opened ≤ limit.toNat)
    (hfull : ¬ machine.Full limit token) :
    machine.step? limit token = machine.step? bound token := by
  cases machine with
  | operator value stack =>
      cases token with
      | delimiter side => cases side <;> rfl
      | number | operator | eol => rfl
  | operand stack =>
      cases token with
      | delimiter side =>
          cases side with
          | left =>
              have hne : stack.opened ≠ limit.toNat := fun h => hfull ⟨rfl, congrArg _ h⟩
              have hlt : stack.opened < limit.toNat := Nat.lt_of_le_of_ne hopened hne
              have hbound := Nat.lt_of_lt_of_le hlt (UInt64.le_iff_toNat_le.1 hle)
              rw [step?, if_pos hlt, step?, if_pos hbound]
          | right => rfl
      | number | operator | eol => rfl

theorem halt_eq_of_not_full (hopened : machine.place.opened ≤ limit.toNat)
    (hfull : ¬ machine.Full limit token) (hstep : machine.step? limit token = none) :
    machine.halt limit token = machine.halt bound token := by
  cases machine with
  | operator value stack => rfl
  | operand stack =>
      have hleft : token ≠ .delimiter .left := by
        rintro rfl
        rw [step?_eq_none_iff] at hstep
        have hle : limit.toNat ≤ stack.opened := Place.le_of_step?_left_eq_none hstep
        exact hfull ⟨rfl, congrArg _ (Nat.le_antisymm hopened hle)⟩
      rw [halt, if_neg hleft, halt, if_neg hleft]

theorem halt_of_full (hfull : machine.Full limit token) :
    machine.step? limit token = none ∧
      machine.halt limit token = ⟨.error (.maxDepthExceeded limit), 1, []⟩ := by
  obtain ⟨rfl, hplace⟩ := hfull
  constructor
  · rw [step?_eq_none_iff, hplace]
    exact Place.step?_left_of_le (Nat.le_refl _)
  · cases machine with
    | operand stack => rfl
    | operator value stack => contradiction

theorem run_eq_or_cut (hle : limit ≤ bound) (machine : Machine)
    (hopened : machine.place.opened ≤ limit.toNat) (tokens : List Token) :
    (machine.run limit tokens = machine.run bound tokens ∧
      ∀ count, ¬ Place.OpensAt bound.toNat limit.toNat machine.place tokens count) ∨
    ∃ count folds, Place.OpensAt limit.toNat limit.toNat machine.place tokens count ∧
      machine.run limit tokens = ⟨.error (.maxDepthExceeded limit), count + 1, folds⟩ ∧
      folds <+: (machine.run bound tokens).folds := by
  induction tokens generalizing machine with
  | nil =>
      have hfull : ¬ machine.Full limit .eol := by simp [Full]
      exact .inl ⟨halt_eq_of_not_full hopened hfull (machine.step?_eol limit),
        fun _ => Place.not_opensAt_nil⟩
  | cons token tokens ih =>
      -- Only a full machine tells the limits apart; until then both runs make the same step.
      by_cases hfull : machine.Full limit token
      · obtain ⟨hstep, hhalt⟩ := halt_of_full hfull
        obtain ⟨rfl, hplace⟩ := hfull
        refine .inr ⟨0, [], ?_, ?_, List.nil_prefix⟩
        · rw [hplace]
          exact .here
        · rw [run, hstep, ← hhalt]
      · have hsame := step?_eq_of_not_full hle hopened hfull
        cases hstep : machine.step? limit token with
        | none =>
            left
            constructor
            · rw [run, hstep, run, ← hsame, hstep]
              exact halt_eq_of_not_full hopened hfull hstep
            · intro count h
              rcases h.of_cons with hhere | ⟨next, rest, hnext, -⟩
              · exact hfull hhere
              · rw [step?_eq_none_iff.1 (hsame.symm.trans hstep)] at hnext
                contradiction
        | some moved =>
            obtain ⟨next, folds⟩ := moved
            have hplace := place_step?_of_step? hstep
            have hplace' := place_step?_of_step? (hsame.symm.trans hstep)
            have hlimit := run_cons_of_step? hstep tokens
            have hbound := run_cons_of_step? (hsame.symm.trans hstep) tokens
            rw [hlimit, hbound]
            rcases ih next (Place.opened_le_of_step? hplace hopened) with ⟨heq, hnone⟩ | hcut
            · left
              refine ⟨by rw [heq], ?_⟩
              intro count h
              rcases h.of_cons with hhere | ⟨other, rest, hother, hrest⟩
              · exact hfull hhere
              · rw [hplace'] at hother
                obtain rfl := Option.some.inj hother
                exact hnone rest hrest
            · obtain ⟨count, more, hopens, hrun, hprefix⟩ := hcut
              right
              refine ⟨count + 1, folds ++ more, .there hplace hopens, ?_, ?_⟩
              · rw [hrun, Reading.after, Nat.add_comm 1 (count + 1)]
              · exact (List.prefix_append_right_inj folds).2 hprefix

/-- An opening parenthesis that is wanted is passed, whether or not the limit admits it. -/
theorem lt_passed_run_of_opensAt {depth count : Nat} {tokens : List Token}
    (h : Place.OpensAt limit.toNat depth machine.place tokens count) :
    count < (machine.run limit tokens).passed := by
  generalize hplace : machine.place = place at h
  induction h generalizing machine with
  | @here tokens =>
      cases machine with
      | operator value stack => contradiction
      | operand stack =>
          rw [run]
          split
          · exact Nat.lt_of_lt_of_le Nat.one_pos (Nat.le_add_right 1 _)
          · exact Nat.one_pos
  | there hstep _ ih =>
      rw [← hplace, ← map_place_step?] at hstep
      obtain ⟨moved, hmoved, hnext⟩ := Option.map_eq_some_iff.1 hstep
      rw [run_cons_of_step? hmoved, Reading.after, Nat.add_comm]
      exact Nat.add_lt_add_left (ih hnext) 1

end Machine

/-! ## Sessions under two limits -/

namespace Session

def withLimit (session : Session) (limit : UInt64) : Session :=
  { session with options := { session.options with maxDepth := limit } }

/-- The evaluation takes an opening parenthesis behind `count` tokens, where an operand is wanted
while `depth` groups are open. -/
structure TakesOpening (session : Session) (depth count : Nat) : Prop where
  opensAt : (Place.operand 0).OpensAt session.limit depth session.remaining count
  passed : session.position + count < session.evaluate.session.position

variable {session : Session} {limit : UInt64}

theorem takesOpening_iff (hdepth : session.depth = 0) {depth count : Nat} :
    session.TakesOpening depth count ↔
      (Place.operand 0).OpensAt session.limit depth session.remaining count := by
  refine ⟨TakesOpening.opensAt, fun h => ⟨h, ?_⟩⟩
  have hopens : Place.OpensAt session.options.maxDepth.toNat depth (Machine.operand []).place
      session.remaining count := h
  have hpassed : count < session.reading.passed := Machine.lt_passed_run_of_opensAt hopens
  have hleft : count < session.left := by
    rw [← session.toCursor.length_remaining]
    exact h.lt_length
  rw [session.evaluate_eq_reading hdepth]
  exact Nat.add_lt_add_left (Nat.lt_min.2 ⟨hpassed, hleft⟩) _

theorem evaluate_withLimit_eq (hdepth : session.depth = 0) :
    (session.withLimit limit).evaluate =
      let reading := (Machine.operand []).run limit session.remaining
      ⟨reading.outcome, (session.withLimit limit).skip reading.passed, reading.folds⟩ :=
  (session.withLimit limit).evaluate_eq_reading hdepth

theorem reading_withLimit_cases (hdepth : session.depth = 0)
    (hle : limit ≤ session.options.maxDepth) :
    ((Machine.operand []).run limit session.remaining = session.reading ∧
      ∀ count, ¬ session.TakesOpening limit.toNat count) ∨
    ∃ count folds, IsLeast {count | session.TakesOpening limit.toNat count} count ∧
      (Machine.operand []).run limit session.remaining =
        ⟨.error (.maxDepthExceeded limit), count + 1, folds⟩ ∧
      folds <+: session.reading.folds := by
  have hbound := UInt64.le_iff_toNat_le.1 hle
  rcases Machine.run_eq_or_cut hle (.operand []) (Nat.zero_le _) session.remaining with
    ⟨hrun, hnone⟩ | ⟨count, folds, hopens, hrun, hprefix⟩
  · exact .inl ⟨hrun, fun count h => hnone count h.opensAt⟩
  · refine .inr ⟨count, folds, ⟨?_, ?_⟩, hrun, hprefix⟩
    · exact (takesOpening_iff hdepth).2 (hopens.of_le hbound)
    · exact fun other hother => hopens.count_le hbound hother.opensAt

theorem evaluate_withLimit_of_not_takes (hdepth : session.depth = 0)
    (hle : limit ≤ session.options.maxDepth)
    (hnone : ∀ count, ¬ session.TakesOpening limit.toNat count) :
    (session.withLimit limit).evaluate =
      { session.evaluate with session := session.evaluate.session.withLimit limit } := by
  have hrun : (Machine.operand []).run limit session.remaining = session.reading := by
    rcases reading_withLimit_cases hdepth hle with ⟨hrun, -⟩ | ⟨count, _, hleast, -, -⟩
    · exact hrun
    · exact absurd hleast.1 (hnone count)
  rw [evaluate_withLimit_eq hdepth, session.evaluate_eq_reading hdepth, hrun]
  rfl

theorem evaluate_withLimit_of_takes (hdepth : session.depth = 0)
    (hle : limit ≤ session.options.maxDepth)
    (htakes : ∃ count, session.TakesOpening limit.toNat count) :
    ∃ count folds, IsLeast {count | session.TakesOpening limit.toNat count} count ∧
      (session.withLimit limit).evaluate = ⟨.error (.maxDepthExceeded limit),
        (session.withLimit limit).skip (count + 1), folds⟩ ∧
      folds <+: session.evaluate.folds := by
  obtain ⟨count, htakes⟩ := htakes
  rcases reading_withLimit_cases hdepth hle with ⟨-, hnone⟩ | ⟨first, folds, hleast, hrun, hprefix⟩
  · exact absurd htakes (hnone count)
  · refine ⟨first, folds, hleast, ?_, ?_⟩
    · rw [evaluate_withLimit_eq hdepth, hrun]
    · rw [session.evaluate_eq_reading hdepth]
      exact hprefix

end Session

/-! ## Texts under every limit -/

theorem outcome_report_of_tokenize {text : String} {tokens : List Token}
    (h : tokenize text = .ok tokens) (options : Options) :
    (report text options).outcome = ((Machine.operand []).run options.maxDepth tokens).outcome := by
  let session : Session := { tokens := tokens.toArray, options }
  have hreading : session.reading = (Machine.operand []).run options.maxDepth tokens := by
    simp [Session.reading, session, Cursor.remaining]
  rw [report, Session.ofText_eq_ok_of_tokenize h, ← hreading]
  exact congrArg Evaluation.outcome (session.evaluate_eq_reading rfl)

theorem outcome_report_of_tokenize_eq_error {text : String} {error : ScanError}
    (h : tokenize text = .error error) (options : Options) :
    (report text options).outcome = .error (.scan error) := by
  rw [report, Session.ofText_eq_error_of_tokenize h]

/-- Where more groups open at once than the limit admits, reading ends at the first of them that is
too deep. -/
theorem Machine.outcome_run_of_lt_highest_place {limit : UInt64} {machine : Machine}
    {tokens : List Token} (hopened : machine.place.opened ≤ limit.toNat)
    (h : limit.toNat < machine.place.highest tokens) :
    (machine.run limit tokens).outcome = .error (.maxDepthExceeded limit) := by
  obtain ⟨count, hcount⟩ := Place.exists_opensAt_of_lt_highest hopened h
  rcases run_eq_or_cut UInt64.le_rfl machine hopened tokens with ⟨-, hnone⟩ | ⟨_, _, -, hrun, -⟩
  · exact absurd hcount (hnone count)
  · rw [hrun]

theorem Machine.outcome_run_of_lt_highest {limit : UInt64} {tokens : List Token}
    (h : limit.toNat < (Place.operand 0).highest tokens) :
    ((operand []).run limit tokens).outcome = .error (.maxDepthExceeded limit) :=
  outcome_run_of_lt_highest_place (Nat.zero_le limit.toNat) h

theorem Machine.run_eq_of_highest_le {limit bound : UInt64} {tokens : List Token}
    (hlimit : (Place.operand 0).highest tokens ≤ limit.toNat)
    (hbound : (Place.operand 0).highest tokens ≤ bound.toNat) :
    (operand []).run limit tokens = (operand []).run bound tokens := by
  wlog hle : limit ≤ bound generalizing limit bound
  · exact (this hbound hlimit ((UInt64.le_total limit bound).resolve_left hle)).symm
  rcases run_eq_or_cut hle (operand []) (Nat.zero_le limit.toNat) tokens with
    ⟨hrun, -⟩ | ⟨_, _, hopens, -, -⟩
  · exact hrun
  · exact absurd hopens.lt_highest (Nat.not_lt.2 hlimit)

theorem lower_limit_only_cuts :
    (∀ (session : Session) (limit : UInt64), session.depth = 0 →
      limit ≤ session.options.maxDepth →
      let lower := (session.withLimit limit).evaluate
      ((∀ count, ¬ session.TakesOpening limit.toNat count) →
        lower.outcome = session.evaluate.outcome ∧
        lower.session = session.evaluate.session.withLimit limit ∧
        lower.folds = session.evaluate.folds) ∧
      ((∃ count, session.TakesOpening limit.toNat count) →
        ∃ count, IsLeast {count | session.TakesOpening limit.toNat count} count ∧
          lower.outcome = .error (.maxDepthExceeded limit) ∧
          lower.session = (session.withLimit limit).skip (count + 1) ∧
          lower.folds <+: session.evaluate.folds)) ∧
    ∀ text : String, ∃ threshold : Nat,
      (∀ options : Options, options.maxDepth.toNat < threshold →
        (report text options).outcome = .error (.maxDepthExceeded options.maxDepth)) ∧
      (∀ options options' : Options, threshold ≤ options.maxDepth.toNat →
        threshold ≤ options'.maxDepth.toNat →
        (report text options).outcome = (report text options').outcome) ∧
      (∀ tokens, tokenize text = .ok tokens → threshold = (Place.operand 0).highest tokens) ∧
      ∀ (tree : Derivation .expression) (rest : List Token),
        tokenize text = .ok (tree.tokens ++ rest) →
        (∀ op, rest.head? ≠ some (.operator op)) → threshold = tree.nesting := by
  constructor
  · intro session limit hdepth hle lower
    constructor
    · intro hnone
      have hlower : lower = _ := Session.evaluate_withLimit_of_not_takes hdepth hle hnone
      rw [hlower]
      exact ⟨rfl, rfl, rfl⟩
    · intro htakes
      obtain ⟨count, folds, hleast, hcut, hprefix⟩ :=
        Session.evaluate_withLimit_of_takes hdepth hle htakes
      have hlower : lower = _ := hcut
      rw [hlower]
      exact ⟨count, hleast, rfl, rfl, hprefix⟩
  · intro text
    cases htokens : tokenize text with
    | error error =>
        have houtcome := outcome_report_of_tokenize_eq_error htokens
        refine ⟨0, ?_, ?_, ?_, ?_⟩
        · intro options h
          contradiction
        · intro options options' _ _
          rw [houtcome, houtcome]
        · intro tokens h
          contradiction
        · intro tree rest h
          contradiction
    | ok tokens =>
        have houtcome := outcome_report_of_tokenize htokens
        refine ⟨(Place.operand 0).highest tokens, ?_, ?_, ?_, ?_⟩
        · intro options h
          rw [houtcome, Machine.outcome_run_of_lt_highest h]
        · intro options options' h h'
          rw [houtcome, houtcome, Machine.run_eq_of_highest_le h h']
        · intro others h
          rw [Except.ok.inj h]
        · intro tree rest h hrest
          rw [Except.ok.inj h, Place.highest_tokens_append_of_follows tree hrest]

/-- In `(1)+((2)3` two groups follow each other and one opens inside another: with one group at once
the second of these is refused, and with two the error is that it goes on with a number. -/
theorem lower_limit_cuts_inner_group :
    let session : Session :=
      { tokens := #[.delimiter .left, .number 1, .delimiter .right, .operator .add,
          .delimiter .left, .delimiter .left, .number 2, .delimiter .right, .number 3, .eol]
        options := { maxDepth := 2 } }
    session.depth = 0 ∧ 1 ≤ session.options.maxDepth ∧ session.TakesOpening 1 5 ∧
      (session.withLimit 1).evaluate.outcome = .error (.maxDepthExceeded 1) ∧
      session.evaluate.outcome = .error .mismatchedParentheses := by
  intro session
  have hopens : (Place.operand 0).OpensAt 2 1 session.remaining 5 :=
    .there rfl (.there rfl (.there rfl (.there rfl (.there rfl .here))))
  have htakes : session.TakesOpening 1 5 := (Session.takesOpening_iff rfl).2 hopens
  have hle : (1 : UInt64) ≤ session.options.maxDepth := by decide
  obtain ⟨_, _, houtcome, -⟩ := (lower_limit_only_cuts.1 session 1 rfl hle).2 ⟨5, htakes⟩
  refine ⟨rfl, hle, htakes, houtcome, ?_⟩
  rw [session.evaluate_eq_reading rfl]
  rfl

end InfixArithmetic
