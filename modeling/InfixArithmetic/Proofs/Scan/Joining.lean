import InfixArithmetic.Proofs.Scan.Offending

/-!
# Texts put one after another

Only a numeral takes characters from behind it, and of the other lexemes only the end marker has
more than one character.  No letter of it but the first opens anything, so what opens no piece keeps
opening none where a piece is put behind it.  A tiling therefore goes on behind a symbol, and an
offending piece stays what it is when more text follows.  Main statement:
`tokenize_composes_at_seam`, two texts put together scan as one after the other unless a run of
digits and points goes on across the seam.
-/

namespace InfixArithmetic

open Scan (Cuts isNumeric)

/-! ## What opens a piece -/

/-- A lexeme that is no numeral opens the text. -/
def OpensSymbol (text : List Char) : Prop :=
  ∃ (lexeme : Lexeme) (rest : List Char), lexeme.isNumeral = false ∧ text = lexeme.chars ++ rest

theorem OpensSymbol.isNumeric_head? {text : List Char} (h : OpensSymbol text) :
    ∀ char ∈ text.head?, isNumeric char = false := by
  obtain ⟨lexeme, rest, hnumeral, rfl⟩ := h
  obtain ⟨first, tail, hchars, hfirst⟩ := lexeme.exists_chars_eq_cons
  rw [hchars, List.cons_append, List.head?_cons]
  rintro char ⟨⟩
  exact hfirst.trans hnumeral

theorem OpensPiece.append {text : List Char} (h : OpensPiece text) (more : List Char) :
    OpensPiece (text ++ more) := by
  rcases h with ⟨char, hchar, hnumeric⟩ | ⟨lexeme, rest, hnumeral, rfl⟩
  · exact .inl ⟨char, List.mem_head?_append_of_mem_head? hchar, hnumeric⟩
  · exact .inr ⟨lexeme, rest ++ more, hnumeral, List.append_assoc _ _ _⟩

/-- A piece is not opened across the place where another one starts. -/
theorem OpensPiece.of_append {tail after : List Char} (htail : tail ≠ [])
    (hafter : OpensPiece after) (h : OpensPiece (tail ++ after)) : OpensPiece tail := by
  obtain ⟨first, tail, rfl⟩ := List.exists_cons_of_ne_nil htail
  rcases h with ⟨char, hchar, hnumeric⟩ | ⟨lexeme, rest, hnumeral, htext⟩
  · exact .inl ⟨char, hchar, hnumeric⟩
  · cases lexeme with
    | numeral spelling => contradiction
    | operator op =>
        obtain ⟨rfl, -⟩ := List.cons.inj htext
        exact .inr ⟨.operator op, tail, rfl, rfl⟩
    | delimiter side =>
        obtain ⟨rfl, -⟩ := List.cons.inj htext
        exact .inr ⟨.delimiter side, tail, rfl, rfl⟩
    | eol =>
        rw [← Scan.startsPiece_iff] at hafter
        match tail with
        | [] =>
            obtain ⟨rfl, rfl⟩ : first = 'E' ∧ after = 'O' :: 'L' :: rest := by
              simpa [Lexeme.chars] using htext
            contradiction
        | [second] =>
            obtain ⟨rfl, rfl, rfl⟩ : first = 'E' ∧ second = 'O' ∧ after = 'L' :: rest := by
              simpa [Lexeme.chars] using htext
            contradiction
        | second :: third :: tail =>
            obtain ⟨rfl, rfl, rfl, -⟩ : first = 'E' ∧ second = 'O' ∧ third = 'L' ∧
                tail ++ after = rest := by
              simpa [Lexeme.chars] using htext
            exact .inr ⟨.eol, tail, rfl, rfl⟩

theorem Gap.of_opensPiece {piece after other : List Char} (h : Gap piece after)
    (hother : OpensPiece other) : Gap piece other := by
  refine ⟨?_, .inr hother⟩
  intro tail htail hne hopens
  exact h.unopened tail htail hne ((OpensPiece.of_append hne hother hopens).append after)

/-! ## More text behind an offending piece -/

/-- What follows an offending piece changes nothing as long as the piece ends where it did. -/
theorem FirstOffending.append {text before piece after : List Char}
    (h : FirstOffending text before piece after) {more : List Char}
    (hmore : after = [] → OpensSymbol more) :
    FirstOffending (text ++ more) before piece (after ++ more) where
  text_eq := by rw [h.text_eq, List.append_assoc _ after]
  tiled := h.tiled
  piece_ne_nil := h.piece_ne_nil
  offends := by
    rcases h.offends with hrun | hgap
    · refine .inl ⟨hrun.numeric, hrun.starts, ?_, hrun.malformed⟩
      cases after with
      | nil => exact (hmore rfl).isNumeric_head?
      | cons char after => exact hrun.ends
    · refine .inr (hgap.of_opensPiece ?_)
      rcases hgap.ends with hnil | hopens
      · rw [hnil]
        exact .inr (hmore hnil)
      · exact hopens.append more

/-! ## More text behind a tiling -/

theorem Tiles.append_symbol {lexemes : List Lexeme} {text : List Char} (h : Tiles lexemes text)
    {lexeme : Lexeme} (hnumeral : lexeme.isNumeral = false) :
    Tiles (lexemes ++ [lexeme]) (text ++ lexeme.chars) where
  chars_eq := by simp [h.chars_eq]
  separated := separated_append_cons h.separated .nil hnumeral

theorem Lexeme.seam_append_chars {lexeme : Lexeme} (hnumeral : lexeme.isNumeral = false)
    (before after : List Char) : Seam (before ++ lexeme.chars) after := by
  rw [seam_append_left_iff lexeme.chars_ne_nil, seam_chars_iff]
  intro h
  rw [hnumeral] at h
  contradiction

/-- Where no run of digits and points goes on across the seam, both sides are cut as if they stood
alone. -/
theorem Scan.ofChars_append {lexemes : List Lexeme} {before after : List Char}
    (h : Tiles lexemes before) (hseam : Seam before after) :
    ofChars (before ++ after) =
      ⟨lexemes ++ (ofChars after).lexemes, (ofChars after).offending?⟩ :=
  (Cuts.append_of_tiles h hseam (cuts_ofChars after)).ofChars_eq

/-- A symbol parts the texts on both sides of it. -/
theorem Scan.ofChars_append_symbol {lexemes : List Lexeme} {before : List Char}
    (h : Tiles lexemes before) {lexeme : Lexeme} (hnumeral : lexeme.isNumeral = false)
    (after : List Char) :
    ofChars (before ++ lexeme.chars ++ after) =
      ⟨lexemes ++ lexeme :: (ofChars after).lexemes, (ofChars after).offending?⟩ := by
  rw [ofChars_append (h.append_symbol hnumeral) (lexeme.seam_append_chars hnumeral before after),
    List.append_assoc, List.singleton_append]

/-! ## Two texts -/

theorem tokenize_append_of_seam {before after : String} {tokens : List Token}
    (h : tokenize before = .ok (tokens ++ [.eol])) (hseam : Seam (visible before) (visible after)) :
    tokenize (before ++ after) = (tokenize after).map (tokens ++ ·) := by
  obtain ⟨lexemes, htiles, hlexemes⟩ := exists_tiles_of_tokenize h
  obtain rfl : tokens = lexemes.map Lexeme.token := List.append_cancel_right hlexemes
  simp only [tokenize, Scan.ofText, visible_append, Scan.ofChars_append htiles hseam, Scan.outcome]
  cases (Scan.ofChars (visible after)).offending? with
  | none => simp [Scan.tokens, Scan.lexemeTokens, Except.map]
  | some piece => rfl

/-- What stands behind an offending piece ends it, whatever comes after that. -/
theorem FirstOffending.tokenize_append {before : String} {start piece rest : List Char}
    (h : FirstOffending (visible before) start piece rest) (hrest : rest ≠ []) (after : String) :
    tokenize (before ++ after) = .error (.unknownToken (String.ofList piece)) := by
  apply FirstOffending.tokenize_eq_error
  rw [visible_append]
  exact h.append fun hnil => absurd hnil hrest

theorem tokenize_composes_at_seam (before after : String) :
    (∀ tokens, tokenize before = .ok (tokens ++ [.eol]) → Seam (visible before) (visible after) →
      (∀ more, tokenize after = .ok more → tokenize (before ++ after) = .ok (tokens ++ more)) ∧
      ∀ error, tokenize after = .error error → tokenize (before ++ after) = .error error) ∧
    ∀ error, tokenize before = .error error →
      (∃ start piece rest, FirstOffending (visible before) start piece rest ∧
        error = .unknownToken (String.ofList piece)) ∧
      ∀ start piece rest, FirstOffending (visible before) start piece rest → rest ≠ [] →
        tokenize (before ++ after) = .error error := by
  constructor
  · intro tokens htokens hseam
    have htext := tokenize_append_of_seam htokens hseam
    constructor
    · intro more hmore
      rw [htext, hmore]
      rfl
    · intro error herror
      rw [htext, herror]
      rfl
  · intro error herror
    refine ⟨exists_firstOffending_of_tokenize herror, fun start piece rest hoffending hrest => ?_⟩
    rw [hoffending.tokenize_append hrest after, ← hoffending.tokenize_eq_error, herror]

/-- A point behind `2*` is as malformed as on its own, and one behind `EO` ends that piece. -/
theorem tokenize_composes_at_points :
    let two : Numeral := ⟨[2], [], List.cons_ne_nil _ _⟩
    tokenize "2*" = .ok ([.number two.value, .operator .mul] ++ [.eol]) ∧
      Seam (visible "2*") (visible " .5") ∧
      tokenize " .5" = .error (.unknownToken ".5") ∧
      tokenize ("2*" ++ " .5") = .error (.unknownToken ".5") ∧
      tokenize "2 EO." = .error (.unknownToken "EO") ∧
      tokenize ("2 EO." ++ "5") = .error (.unknownToken "EO") := by
  intro two
  have htiles : Tiles [.numeral two, .operator .mul] (visible "2*") :=
    ⟨by decide, by simp [Separated, Lexeme.isNumeral]⟩
  have hbefore : tokenize "2*" = .ok ([.number two.value, .operator .mul] ++ [.eol]) :=
    tokenize_eq_ok_of_tiles htiles
  have hseam : Seam (visible "2*") (visible " .5") := by
    have hlast : (visible "2*").getLast? = some '*' := by decide
    intro last hmem hnumeric
    obtain rfl : '*' = last := Option.some.inj (hlast.symm.trans hmem)
    contradiction
  have hrun : FirstOffending (visible " .5") [] ['.', '5'] [] := by
    refine ⟨by decide, ⟨[], rfl, .nil⟩, List.cons_ne_nil _ _, .inl ?_⟩
    refine ⟨List.all_eq_true.1 rfl, by simp, by simp, ?_⟩
    intro numeral hchars
    rw [← Numeral.ofChars?_eq_some_iff] at hchars
    contradiction
  have hgap : FirstOffending (visible "2 EO.") ['2'] ['E', 'O'] ['.'] :=
    ⟨by decide, ⟨[.numeral two], rfl, .singleton _⟩, List.cons_ne_nil _ _,
      .inr (gap_iff.2 (by decide))⟩
  obtain ⟨-, hmore⟩ := (tokenize_composes_at_seam "2 EO." "5").2 _ hgap.tokenize_eq_error
  exact ⟨hbefore, hseam, hrun.tokenize_eq_error,
    ((tokenize_composes_at_seam "2*" " .5").1 _ hbefore hseam).2 _ hrun.tokenize_eq_error,
    hgap.tokenize_eq_error, hmore _ _ _ hgap (List.cons_ne_nil _ _)⟩

end InfixArithmetic
