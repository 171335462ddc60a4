import InfixArithmetic.Proofs.Scan.Tiling
import InfixArithmetic.Proofs.Session.Passing
import InfixArithmetic.Report

/-!
# Offending pieces

A text that has no tokens is a tiled part, the piece that scanning stops at, and a rest that was
never looked at.  The piece is a whole run of digits and points that is no numeral, or everything
between two places where a lexeme could start.  Main statement: `tokenize_error_iff_offends`,
scanning fails exactly when there is such a piece, there is one at most, and every error names it.
-/

namespace InfixArithmetic

open Scan (Cuts isNumeric startsPiece unmatched)

/-! ## Tilings in front of a text -/

/-- No digits or points stand on both sides of the seam. -/
def Seam (before after : List Char) : Prop :=
  ∀ last ∈ before.getLast?, isNumeric last = true → ∀ first ∈ after.head?, isNumeric first = false

theorem Lexeme.chars_ne_nil (lexeme : Lexeme) : lexeme.chars ≠ [] := by
  obtain ⟨char, tail, hchars, -⟩ := lexeme.exists_chars_eq_cons
  simp [hchars]

theorem Lexeme.isNumeric_of_mem_getLast? {lexeme : Lexeme} {char : Char}
    (h : char ∈ lexeme.chars.getLast?) : isNumeric char = lexeme.isNumeral := by
  cases lexeme with
  | numeral spelling => exact Numeral.isNumeric_of_mem_chars (List.mem_of_getLast? h)
  | operator op =>
      obtain rfl : op.symbol = char := by simpa [chars] using h
      cases op <;> rfl
  | delimiter side =>
      obtain rfl : side.symbol = char := by simpa [chars] using h
      cases side <;> rfl
  | eol =>
      obtain rfl : 'L' = char := by simpa [chars] using h
      rfl

theorem seam_chars_iff {lexeme : Lexeme} {rest : List Char} :
    Seam lexeme.chars rest ↔ lexeme.EndsBefore rest := by
  constructor
  · intro h hnumeral
    have hlast := List.getLast?_eq_some_getLast lexeme.chars_ne_nil
    exact h _ hlast ((Lexeme.isNumeric_of_mem_getLast? hlast).trans hnumeral)
  · intro h last hlast hnumeric
    exact h ((Lexeme.isNumeric_of_mem_getLast? hlast).symm.trans hnumeric)

theorem seam_nil_left (rest : List Char) : Seam [] rest := by
  intro last hlast
  contradiction

theorem seam_append_left_iff {first second rest : List Char} (hsecond : second ≠ []) :
    Seam (first ++ second) rest ↔ Seam second rest := by
  rw [Seam, List.getLast?_append_of_ne_nil first hsecond, Seam]

/-- A numeral followed by more lexemes ends where they start. -/
theorem Lexeme.endsBefore_append {lexeme : Lexeme} {before rest : List Char}
    (hends : lexeme.EndsBefore before) (hseam : Seam (lexeme.chars ++ before) rest) :
    lexeme.EndsBefore (before ++ rest) := by
  cases before with
  | nil =>
      rw [List.append_nil] at hseam
      exact seam_chars_iff.1 hseam
  | cons char before => exact hends

theorem Scan.Cuts.append_of_tiles {lexemes more : List Lexeme} {before rest : List Char}
    {offending? : Option (List Char)} (hbefore : Tiles lexemes before) (hseam : Seam before rest)
    (hrest : Cuts rest ⟨more, offending?⟩) :
    Cuts (before ++ rest) ⟨lexemes ++ more, offending?⟩ := by
  obtain ⟨rfl, hseparated⟩ := hbefore
  induction lexemes with
  | nil => exact hrest
  | cons lexeme lexemes ih =>
      obtain ⟨hends, hseparated⟩ := separated_cons_iff.1 hseparated
      rw [List.flatMap_cons] at hseam ⊢
      have hseam' : Seam (lexemes.flatMap Lexeme.chars) rest := by
        by_cases hnil : lexemes.flatMap Lexeme.chars = []
        · rw [hnil]
          exact seam_nil_left rest
        · exact (seam_append_left_iff hnil).1 hseam
      rw [List.append_assoc]
      exact .lexeme (Lexeme.endsBefore_append hends hseam) (ih hseparated hseam')

/-- What is cut off before an offending piece tiles the text up to it. -/
theorem Scan.Cuts.exists_tiles {text piece : List Char} {scan : Scan} (h : Cuts text scan)
    (hpiece : scan.offending? = some piece) :
    ∃ before rest, text = before ++ rest ∧ Tiles scan.lexemes before ∧ Seam before rest ∧
      Cuts rest ⟨[], some piece⟩ := by
  induction h with
  | nil => contradiction
  | @lexeme lexeme text scan hends _ ih =>
      obtain ⟨before, rest, rfl, ⟨hchars, hseparated⟩, hseam, hcuts⟩ := ih hpiece
      refine ⟨lexeme.chars ++ before, rest, (List.append_assoc _ _ _).symm, ⟨?_, ?_⟩, ?_, hcuts⟩
      · rw [Scan.cons, List.flatMap_cons, hchars]
      · refine separated_cons_iff.2 ⟨?_, hseparated⟩
        intro hnumeral char hchar
        rw [hchars] at hchar
        exact hends hnumeral char (List.mem_head?_append_of_mem_head? hchar)
      · by_cases hnil : before = []
        · subst hnil
          rw [List.append_nil, seam_chars_iff]
          exact hends
        · exact (seam_append_left_iff hnil).2 hseam
  | run hne hrun hrest hnumeral =>
      cases hpiece
      exact ⟨[], _, rfl, ⟨rfl, .nil⟩, seam_nil_left _, .run hne hrun hrest hnumeral⟩
  | gap h =>
      cases hpiece
      exact ⟨[], _, rfl, ⟨rfl, .nil⟩, seam_nil_left _, .gap h⟩

/-! ## Malformed runs and gaps -/

/-- A digit or point, or a whole lexeme that is no numeral, opens the text. -/
def OpensPiece (text : List Char) : Prop :=
  (∃ char ∈ text.head?, isNumeric char = true) ∨
    ∃ (lexeme : Lexeme) (rest : List Char), lexeme.isNumeral = false ∧ text = lexeme.chars ++ rest

theorem Scan.startsPiece_iff {text : List Char} : startsPiece text = true ↔ OpensPiece text := by
  constructor
  · intro h
    unfold startsPiece at h
    split at h
    · contradiction
    · exact .inr ⟨.eol, _, rfl, rfl⟩
    · rename_i char rest _
      rcases Bool.or_eq_true_iff.1 h with hnumeric | hsymbol
      · exact .inl ⟨char, rfl, hnumeric⟩
      · obtain ⟨lexeme, hlexeme⟩ := Option.isSome_iff_exists.1 hsymbol
        refine .inr ⟨lexeme, rest, Lexeme.isNumeral_of_ofSymbol? hlexeme, ?_⟩
        rw [Lexeme.chars_of_ofSymbol? hlexeme]
        rfl
  · rintro (⟨char, hchar, hnumeric⟩ | ⟨lexeme, rest, hnumeral, rfl⟩)
    · cases text with
      | nil => contradiction
      | cons first rest =>
          obtain rfl : first = char := Option.some.inj hchar
          rw [← Bool.not_eq_false, startsPiece_cons_eq_false_iff]
          simp [hnumeric]
    · cases lexeme with
      | numeral spelling => contradiction
      | operator op => cases op <;> rfl
      | delimiter side => cases side <;> rfl
      | eol => rfl

/-- A whole run of digits and points that is no numeral. -/
structure MalformedRun (before piece after : List Char) : Prop where
  numeric : ∀ char ∈ piece, isNumeric char = true
  starts : ∀ char ∈ before.getLast?, isNumeric char = false
  ends : ∀ char ∈ after.head?, isNumeric char = false
  malformed : ∀ numeral : Numeral, piece ≠ numeral.chars

/-- No lexeme can start inside the piece, and one can right behind it unless the text ends there. -/
structure Gap (piece after : List Char) : Prop where
  unopened : ∀ tail, tail <:+ piece → tail ≠ [] → ¬ OpensPiece (tail ++ after)
  ends : after = [] ∨ OpensPiece after

theorem gap_nil_iff {after : List Char} : Gap [] after ↔ after = [] ∨ OpensPiece after := by
  refine ⟨Gap.ends, fun h => ⟨?_, h⟩⟩
  intro tail htail hne
  exact absurd (List.suffix_nil.1 htail) hne

theorem gap_cons_iff {char : Char} {piece after : List Char} :
    Gap (char :: piece) after ↔ ¬ OpensPiece (char :: piece ++ after) ∧ Gap piece after := by
  constructor
  · rintro ⟨hunopened, hends⟩
    refine ⟨hunopened _ (List.suffix_refl _) (List.cons_ne_nil _ _), ?_, hends⟩
    intro tail htail
    exact hunopened tail (htail.trans (List.suffix_cons char piece))
  · rintro ⟨hopens, hunopened, hends⟩
    refine ⟨?_, hends⟩
    intro tail htail hne
    rcases List.suffix_cons_iff.1 htail with rfl | htail
    · exact hopens
    · exact hunopened tail htail hne

/-- A gap is what goes unmatched in front of its rest. -/
theorem gap_iff {piece after : List Char} :
    Gap piece after ↔ unmatched (piece ++ after) = piece := by
  induction piece with
  | nil =>
      rw [gap_nil_iff, List.nil_append]
      cases after with
      | nil => simp [unmatched]
      | cons char after =>
          rw [unmatched, ← Scan.startsPiece_iff]
          simp
  | cons char piece ih =>
      rw [gap_cons_iff, ih, ← Scan.startsPiece_iff, List.cons_append, unmatched]
      split <;> simp [*]

theorem Scan.unmatched_prefix (text : List Char) : unmatched text <+: text := by
  induction text with
  | nil => exact List.prefix_refl _
  | cons char rest ih =>
      rw [unmatched]
      split
      · exact List.nil_prefix
      · exact (List.prefix_cons_inj char).2 ih

/-! ## The first offending piece -/

/-- The text is tiled up to the piece, and scanning cannot go on there. -/
structure FirstOffending (text before piece after : List Char) : Prop where
  text_eq : text = before ++ piece ++ after
  tiled : ∃ lexemes, Tiles lexemes before
  piece_ne_nil : piece ≠ []
  offends : MalformedRun before piece after ∨ Gap piece after

namespace FirstOffending

variable {text before piece after before' piece' after' : List Char}

theorem exists_of_cuts {rest : List Char} {lexemes : List Lexeme}
    (hbefore : Tiles lexemes before) (hseam : Seam before rest)
    (hrest : Cuts rest ⟨[], some piece⟩) :
    ∃ after, FirstOffending (before ++ rest) before piece after := by
  cases hrest with
  | @run _ after hne hrun hends hmalformed =>
      refine ⟨after, (List.append_assoc _ _ _).symm, ⟨lexemes, hbefore⟩, hne, .inl ⟨hrun, ?_, hends,
        hmalformed⟩⟩
      intro last hlast
      obtain ⟨char, tail, rfl⟩ := List.exists_cons_of_ne_nil hne
      have hchar : isNumeric char = true := hrun char List.mem_cons_self
      -- A numeral in front of the run would have taken its first character.
      by_contra hnumeric
      rw [hseam last hlast (by simpa using hnumeric) char rfl] at hchar
      contradiction
  | @gap char rest hstart =>
      have hunmatched : unmatched (char :: rest) = char :: unmatched rest := by
        rw [unmatched, hstart]
        rfl
      obtain ⟨after, hafter⟩ := Scan.unmatched_prefix (char :: rest)
      rw [hunmatched] at hafter
      refine ⟨after, ?_, ⟨lexemes, hbefore⟩, List.cons_ne_nil _ _, .inr ?_⟩
      · rw [List.append_assoc, hafter]
      · rw [gap_iff, hafter, hunmatched]

theorem seam (h : FirstOffending text before piece after) : Seam before (piece ++ after) := by
  obtain ⟨char, tail, rfl⟩ := List.exists_cons_of_ne_nil h.piece_ne_nil
  intro last hlast hnumeric first hfirst
  obtain rfl : char = first := Option.some.inj hfirst
  rcases h.offends with hrun | hgap
  · rw [hrun.starts last hlast] at hnumeric
    contradiction
  · by_contra hchar
    exact (gap_cons_iff.1 hgap).1 (.inl ⟨char, rfl, by simpa using hchar⟩)

theorem cuts (h : FirstOffending text before piece after) :
    Cuts (piece ++ after) ⟨[], some piece⟩ := by
  rcases h.offends with hrun | hgap
  · exact .run h.piece_ne_nil hrun.numeric hrun.ends hrun.malformed
  · obtain ⟨char, tail, rfl⟩ := List.exists_cons_of_ne_nil h.piece_ne_nil
    obtain ⟨hopens, htail⟩ := gap_cons_iff.1 hgap
    have hstart : startsPiece (char :: (tail ++ after)) = false := by
      rw [← Bool.not_eq_true, Scan.startsPiece_iff]
      exact hopens
    have hcuts := Cuts.gap hstart
    rwa [gap_iff.1 htail] at hcuts

theorem exists_ofChars_eq (h : FirstOffending text before piece after) :
    ∃ lexemes, Tiles lexemes before ∧ Scan.ofChars text = ⟨lexemes, some piece⟩ := by
  obtain ⟨lexemes, hlexemes⟩ := h.tiled
  have hcuts := Cuts.append_of_tiles hlexemes h.seam h.cuts
  rw [List.append_nil, ← List.append_assoc, ← h.text_eq] at hcuts
  exact ⟨lexemes, hlexemes, hcuts.ofChars_eq⟩

theorem unique (h : FirstOffending text before piece after)
    (h' : FirstOffending text before' piece' after') :
    before = before' ∧ piece = piece' ∧ after = after' := by
  obtain ⟨lexemes, hlexemes, hscan⟩ := h.exists_ofChars_eq
  obtain ⟨lexemes', hlexemes', hscan'⟩ := h'.exists_ofChars_eq
  obtain ⟨rfl, rfl⟩ : lexemes = lexemes' ∧ piece = piece' := by
    simpa using hscan.symm.trans hscan'
  obtain rfl : before = before' := hlexemes.chars_eq.symm.trans hlexemes'.chars_eq
  exact ⟨rfl, rfl, List.append_cancel_left (h.text_eq.symm.trans h'.text_eq)⟩

end FirstOffending

theorem exists_firstOffending_of_ofChars {text piece : List Char} {lexemes : List Lexeme}
    (h : Scan.ofChars text = ⟨lexemes, some piece⟩) :
    ∃ before after, FirstOffending text before piece after := by
  obtain ⟨before, rest, rfl, hbefore, hseam, hrest⟩ := (Scan.cuts_iff.2 h).exists_tiles rfl
  obtain ⟨after, hoffending⟩ := FirstOffending.exists_of_cuts hbefore hseam hrest
  exact ⟨before, after, hoffending⟩

/-! ## Errors -/

theorem visible_ofList_of_forall_mem {text : String} {chars : List Char}
    (h : ∀ char ∈ chars, char ∈ visible text) : visible (String.ofList chars) = chars :=
  visible_ofList_eq_self fun char hchar => isBlank_eq_false_of_mem_visible (h char hchar)

theorem exists_firstOffending_of_tokenize {text : String} {error : ScanError}
    (h : tokenize text = .error error) :
    ∃ before piece after, FirstOffending (visible text) before piece after ∧
      error = .unknownToken (String.ofList piece) := by
  rw [tokenize, Scan.ofText] at h
  cases hscan : Scan.ofChars (visible text) with
  | mk lexemes offending? =>
      rw [hscan] at h
      cases offending? with
      | none => contradiction
      | some piece =>
          obtain ⟨before, after, hoffending⟩ := exists_firstOffending_of_ofChars hscan
          exact ⟨before, piece, after, hoffending, (Except.error.inj h).symm⟩

namespace FirstOffending

variable {text : String} {before piece after : List Char}

theorem tokenize_eq_error (h : FirstOffending (visible text) before piece after) :
    tokenize text = .error (.unknownToken (String.ofList piece)) := by
  obtain ⟨lexemes, -, hscan⟩ := h.exists_ofChars_eq
  rw [tokenize, Scan.ofText, hscan]
  rfl

theorem exists_tokenize_before (h : FirstOffending (visible text) before piece after) :
    ∃ tokens, tokenize (String.ofList before) = .ok tokens := by
  obtain ⟨lexemes, hlexemes⟩ := h.tiled
  have hmem : ∀ char ∈ before, char ∈ visible text := by
    intro char hchar
    rw [h.text_eq]
    simp [hchar]
  rw [← visible_ofList_of_forall_mem hmem] at hlexemes
  exact ⟨_, tokenize_eq_ok_of_tiles hlexemes⟩

end FirstOffending

theorem tokenize_error_iff_offends (text : String) :
    (∀ error, tokenize text = .error error ↔
      ∃ before piece after, FirstOffending (visible text) before piece after ∧
        error = .unknownToken (String.ofList piece)) ∧
    (∀ before piece after before' piece' after',
      FirstOffending (visible text) before piece after →
      FirstOffending (visible text) before' piece' after' →
        before = before' ∧ piece = piece' ∧ after = after') ∧
    ∀ before piece after, FirstOffending (visible text) before piece after →
      (∃ tokens, tokenize (String.ofList before) = .ok tokens) ∧
      (∀ options, Session.ofText text options =
        .error (.scan (.unknownToken (String.ofList piece)))) ∧
      evaluate text = .error (.scan (.unknownToken (String.ofList piece))) := by
  refine ⟨fun error => ⟨exists_firstOffending_of_tokenize, ?_⟩,
    fun _ _ _ _ _ _ => FirstOffending.unique, ?_⟩
  · rintro ⟨before, piece, after, hoffending, rfl⟩
    exact hoffending.tokenize_eq_error
  · intro before piece after hoffending
    have hsession : ∀ options, Session.ofText text options =
        .error (.scan (.unknownToken (String.ofList piece))) :=
      Session.ofText_eq_error_of_tokenize hoffending.tokenize_eq_error
    refine ⟨hoffending.exists_tokenize_before, hsession, ?_⟩
    rw [evaluate, hsession]
    rfl

/-- The first two letters of `EOEOL` are no lexeme, and the end marker behind them does not help. -/
theorem evaluate_partial_end_marker :
    let text := "2 *EO EOL.5"
    FirstOffending (visible text) ['2', '*'] ['E', 'O'] ['E', 'O', 'L', '.', '5'] ∧
      evaluate text = .error (.scan (.unknownToken "EO")) := by
  intro text
  let two : Numeral := ⟨[2], [], List.cons_ne_nil _ _⟩
  have hseparated : Separated [.numeral two, .operator .mul] := by
    simp [Separated, Lexeme.isNumeral]
  have htiles : Tiles [.numeral two, .operator .mul] ['2', '*'] := ⟨rfl, hseparated⟩
  have hgap : Gap ['E', 'O'] ['E', 'O', 'L', '.', '5'] := gap_iff.2 (by decide)
  have hoffending : FirstOffending (visible text) ['2', '*'] ['E', 'O'] ['E', 'O', 'L', '.', '5'] :=
    ⟨by decide, ⟨_, htiles⟩, List.cons_ne_nil _ _, .inr hgap⟩
  exact ⟨hoffending, ((tokenize_error_iff_offends text).2.2 _ _ _ hoffending).2.2⟩

end InfixArithmetic
