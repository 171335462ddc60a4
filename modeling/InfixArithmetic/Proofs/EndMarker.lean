import InfixArithmetic.Proofs.OperatorStack.Simulation
import InfixArithmetic.Proofs.Scan.Joining

/-!
# The end marker inside a text

The end marker parts a text: what stands in front of it is scanned as if nothing followed, and what
follows as if nothing stood in front.  An evaluation can use no end token at any place, so it stops
there as it does behind the last token.  Main statement: `end_marker_cuts_text`, a text with an end
marker in it fails with the first of its parts that fails, and else is evaluated like the part in
front.
-/

namespace InfixArithmetic

/-! ## Scanning both sides -/

theorem visible_endMarker_append (before after : String) :
    visible (before ++ endMarker ++ after) =
      visible before ++ Lexeme.eol.chars ++ visible after := by
  rw [visible_append, visible_append]
  rfl

theorem tokenize_endMarker_of_error {before : String} {error : ScanError}
    (h : tokenize before = .error error) (after : String) :
    tokenize (before ++ endMarker ++ after) = .error error := by
  obtain ⟨start, piece, rest, hoffending, rfl⟩ := exists_firstOffending_of_tokenize h
  apply FirstOffending.tokenize_eq_error
  rw [visible_endMarker_append, List.append_assoc]
  exact hoffending.append fun _ => ⟨.eol, visible after, rfl, rfl⟩

theorem tokenize_endMarker_of_ok {before : String} {tokens : List Token}
    (h : tokenize before = .ok tokens) (after : String) :
    tokenize (before ++ endMarker ++ after) = (tokenize after).map (tokens ++ ·) := by
  obtain ⟨lexemes, htiles, rfl⟩ := exists_tiles_of_tokenize h
  have hnumeral : Lexeme.eol.isNumeral = false := rfl
  have hscan := Scan.ofChars_append_symbol htiles hnumeral (visible after)
  rw [← visible_endMarker_append] at hscan
  simp only [tokenize, Scan.ofText, hscan, Scan.outcome]
  cases (Scan.ofChars (visible after)).offending? with
  | none => simp [Scan.tokens, Scan.lexemeTokens, Lexeme.token, Except.map]
  | some piece => rfl

/-! ## Reading up to an end token -/

namespace Machine

theorem run_append_eol (limit : UInt64) (machine : Machine) (tokens more : List Token) :
    machine.run limit (tokens ++ .eol :: more) = machine.run limit tokens := by
  induction tokens generalizing machine with
  | nil => exact run_of_step?_eq_none (machine.step?_eol limit)
  | cons token tokens ih => simp only [List.cons_append, run, ih]

/-- Only where an operand is wanted is an end token behind the last token passed. -/
theorem passed_run_cases (limit : UInt64) (machine : Machine) (tokens : List Token) :
    (machine.run limit tokens).passed ≤ tokens.length ∨
      (machine.run limit tokens).passed = tokens.length + 1 ∧
        (machine.run limit tokens).outcome = .error (.unexpectedToken .eol) := by
  induction tokens generalizing machine with
  | nil =>
      cases machine with
      | operand stack => exact .inr ⟨rfl, rfl⟩
      | operator value stack => exact .inl (Nat.le_of_eq (passed_halt_operator _ _ _ _))
  | cons token tokens ih =>
      rw [run]
      split
      · rename_i next folds _
        simp only [Reading.after, List.length_cons]
        rcases ih next with hle | ⟨hpassed, houtcome⟩
        · exact .inl (by omega)
        · exact .inr ⟨by omega, houtcome⟩
      · left
        exact Nat.le_trans (machine.passed_halt_le limit token) (Nat.succ_le_succ (Nat.zero_le _))

end Machine

namespace Session

variable {session : Session} {before more : List Token}

theorem reading_eq_of_eol (h : session.remaining = before ++ .eol :: more) :
    session.reading = (Machine.operand []).run session.options.maxDepth before := by
  rw [reading, h, Machine.run_append_eol]

theorem position_evaluate_of_eol (hdepth : session.depth = 0)
    (h : session.remaining = before ++ .eol :: more) :
    session.evaluate.session.position = session.position + session.reading.passed := by
  have hcases := Machine.passed_run_cases session.options.maxDepth (.operand []) before
  rw [← reading_eq_of_eol h] at hcases
  have hpassed : session.reading.passed ≤ before.length + 1 := by omega
  have hleft : before.length + 1 ≤ session.left := by
    rw [← session.toCursor.length_remaining, h]
    simp
  rw [session.evaluate_eq_reading hdepth]
  exact congrArg (session.position + ·) (Nat.min_eq_left (Nat.le_trans hpassed hleft))

/-- An end token is passed only where an operand is wanted, and nothing behind it is. -/
theorem position_evaluate_le (hdepth : session.depth = 0) {stop : Nat}
    (h : session.remaining[stop]? = some .eol) :
    session.evaluate.session.position ≤ session.position + stop + 1 ∧
      (session.evaluate.session.position = session.position + stop + 1 →
        session.evaluate.outcome = .error (.unexpectedToken .eol)) := by
  have hsplit : session.remaining =
      session.remaining.take stop ++ .eol :: session.remaining.drop (stop + 1) :=
    calc
      session.remaining = session.remaining.take stop ++ session.remaining.drop stop :=
        (List.take_append_drop _ _).symm
      _ = session.remaining.take stop ++ .eol :: session.remaining.drop (stop + 1) := by
        rw [List.drop_eq_getElem?_toList_append, h]
        rfl
  have hlength : (session.remaining.take stop).length = stop := by
    obtain ⟨hlt, -⟩ := List.getElem?_eq_some_iff.1 h
    exact List.length_take_of_le (Nat.le_of_lt hlt)
  have houtcome : session.evaluate.outcome = session.reading.outcome := by
    rw [session.evaluate_eq_reading hdepth]
  have hcases := Machine.passed_run_cases session.options.maxDepth (.operand [])
    (session.remaining.take stop)
  rw [position_evaluate_of_eol hdepth hsplit, houtcome]
  rw [← reading_eq_of_eol hsplit, hlength] at hcases
  rcases hcases with hle | ⟨hpassed, herror⟩
  · constructor <;> omega
  · exact ⟨by omega, fun _ => herror⟩

end Session

/-- Two sessions at the start of texts that agree up to an end token. -/
theorem Session.evaluate_eq_of_eol (before more other : List Token) (options : Options) :
    let first : Session := { tokens := (before ++ .eol :: more).toArray, options }
    let second : Session := { tokens := (before ++ .eol :: other).toArray, options }
    first.evaluate.outcome = second.evaluate.outcome ∧
      first.evaluate.folds = second.evaluate.folds ∧
      first.evaluate.session.position = second.evaluate.session.position := by
  intro first second
  have hfirst : first.remaining = before ++ .eol :: more := by simp [first, Cursor.remaining]
  have hsecond : second.remaining = before ++ .eol :: other := by simp [second, Cursor.remaining]
  have hreading : first.reading = second.reading :=
    (reading_eq_of_eol hfirst).trans (reading_eq_of_eol hsecond).symm
  rw [position_evaluate_of_eol rfl hfirst, position_evaluate_of_eol rfl hsecond,
    first.evaluate_eq_reading rfl, second.evaluate_eq_reading rfl, hreading]
  exact ⟨rfl, rfl, rfl⟩

theorem end_marker_cuts_text (before after : String) (options : Options) :
    let text := before ++ endMarker ++ after
    (∀ error, tokenize before = .error error →
      Session.ofText before options = .error (.scan error) ∧
      Session.ofText text options = .error (.scan error)) ∧
    (∀ tokens error, tokenize before = .ok tokens → tokenize after = .error error →
      Session.ofText after options = .error (.scan error) ∧
      Session.ofText text options = .error (.scan error)) ∧
    ∀ tokens more, tokenize before = .ok tokens → tokenize after = .ok more →
      ∃ session whole, Session.ofText before options = .ok session ∧
        Session.ofText text options = .ok whole ∧
        whole.tokens = (tokens ++ more).toArray ∧
        whole.evaluate.outcome = session.evaluate.outcome ∧
        whole.evaluate.folds = session.evaluate.folds ∧
        whole.evaluate.session.position = session.evaluate.session.position ∧
        ∀ stop, whole.tokens[stop]? = some .eol →
          whole.evaluate.session.position ≤ stop + 1 ∧
          (whole.evaluate.session.position = stop + 1 →
            whole.evaluate.outcome = .error (.unexpectedToken .eol)) := by
  intro text
  refine ⟨?_, ?_, ?_⟩
  · intro error herror
    exact ⟨Session.ofText_eq_error_of_tokenize herror options,
      Session.ofText_eq_error_of_tokenize (tokenize_endMarker_of_error herror after) options⟩
  · intro tokens error htokens herror
    have htext := tokenize_endMarker_of_ok htokens after
    rw [herror] at htext
    exact ⟨Session.ofText_eq_error_of_tokenize herror options,
      Session.ofText_eq_error_of_tokenize htext options⟩
  · intro tokens more htokens hmore
    have htext : tokenize text = .ok (tokens ++ more) := by
      rw [tokenize_endMarker_of_ok htokens after, hmore]
      rfl
    have hsession := Session.ofText_eq_ok_of_tokenize htokens options
    have hwhole := Session.ofText_eq_ok_of_tokenize htext options
    obtain ⟨lexemes, -, rfl⟩ := exists_tiles_of_tokenize htokens
    rw [List.append_assoc, List.singleton_append] at hwhole
    obtain ⟨houtcome, hfolds, hposition⟩ :=
      Session.evaluate_eq_of_eol (lexemes.map Lexeme.token) more [] options
    refine ⟨_, _, hsession, hwhole, by simp, houtcome, hfolds, hposition, ?_⟩
    intro stop hstop
    let whole : Session :=
      { tokens := (lexemes.map Lexeme.token ++ .eol :: more).toArray, options }
    have hremaining : whole.remaining[stop]? = some .eol := by
      simpa [whole, Cursor.remaining] using hstop
    have hle := whole.position_evaluate_le rfl hremaining
    rwa [show whole.position + stop = stop from Nat.zero_add stop] at hle

/-- The group is still open at the end marker, so the closing parenthesis behind it is not found. -/
theorem end_marker_cuts_open_group :
    let text := "2 * (3 + " ++ endMarker ++ "4)"
    ∃ whole, Session.ofText text {} = .ok whole ∧ whole.tokens[5]? = some .eol ∧
      whole.evaluate.session.position = 6 ∧
      whole.evaluate.outcome = .error (.unexpectedToken .eol) := by
  intro text
  let two : Numeral := ⟨[2], [], List.cons_ne_nil _ _⟩
  let three : Numeral := ⟨[3], [], List.cons_ne_nil _ _⟩
  let four : Numeral := ⟨[4], [], List.cons_ne_nil _ _⟩
  have hbefore : Tiles [.numeral two, .operator .mul, .delimiter .left, .numeral three,
      .operator .add] (visible "2 * (3 + ") :=
    ⟨by decide, by simp [Separated, Lexeme.isNumeral]⟩
  have hafter : Tiles [.numeral four, .delimiter .right] (visible "4)") :=
    ⟨by decide, by simp [Separated, Lexeme.isNumeral]⟩
  obtain ⟨session, whole, hsession, hwhole, htokens, houtcome, -, hposition, hstop⟩ :=
    (end_marker_cuts_text "2 * (3 + " "4)" {}).2.2 _ _ (tokenize_eq_ok_of_tiles hbefore)
      (tokenize_eq_ok_of_tiles hafter)
  have hmarker : whole.tokens[5]? = some .eol := by rw [htokens]; rfl
  rw [Session.ofText_eq_ok_of_tokenize (tokenize_eq_ok_of_tiles hbefore)] at hsession
  have hpassed : whole.evaluate.session.position = 6 := by
    obtain rfl := Except.ok.inj hsession
    rw [hposition, Session.evaluate_eq_reading _ rfl]
    rfl
  exact ⟨whole, hwhole, hmarker, hpassed, (hstop 5 hmarker).2 hpassed⟩

end InfixArithmetic
