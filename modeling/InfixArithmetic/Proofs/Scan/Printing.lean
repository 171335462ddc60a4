import InfixArithmetic.Proofs.Float.ReadBack
import InfixArithmetic.Proofs.Scan.Alphabet

/-!
# Printing tokens

The texts of tokens are written one behind the other, with nothing in between.  Scanning finds the
same tokens in them again: two numbers never stand side by side, and a float is written as a numeral
that reads back, unless it is infinite.  Main statement: `printing_inverts_scanning`, these are
the sequences of tokens that texts have, and each is found again in its own text exactly when its
numbers are finite.
-/

namespace InfixArithmetic

/-! ## Tokens that a text can have -/

structure Scannable (tokens : List Token) : Prop where
  apart : tokens.IsChain fun first second => ¬ (first.kind = .number ∧ second.kind = .number)
  numerals : ∀ value, .number value ∈ tokens → ∃ numeral : Numeral, numeral.value = value

theorem Lexeme.kind_token_eq_number_iff {lexeme : Lexeme} :
    lexeme.token.kind = .number ↔ lexeme.isNumeral = true := by
  cases lexeme <;> simp [token, Token.kind, isNumeral]

theorem separated_iff {lexemes : List Lexeme} :
    Separated lexemes ↔ (lexemes.map Lexeme.token).IsChain fun first second =>
      ¬ (first.kind = .number ∧ second.kind = .number) := by
  simp only [Separated, List.isChain_map, Lexeme.kind_token_eq_number_iff]

theorem scannable_map_token_iff {lexemes : List Lexeme} :
    Scannable (lexemes.map Lexeme.token) ↔ Separated lexemes := by
  constructor
  · exact fun h => separated_iff.2 h.apart
  · intro h
    refine ⟨separated_iff.1 h, ?_⟩
    intro value hvalue
    obtain ⟨lexeme, -, hlexeme⟩ := List.mem_map.1 hvalue
    cases lexeme with
    | numeral spelling => exact ⟨spelling, Token.number.inj hlexeme⟩
    | operator op | delimiter side | eol => contradiction

theorem Scannable.exists_lexemes {tokens : List Token} (h : Scannable tokens) :
    ∃ lexemes, Separated lexemes ∧ lexemes.map Lexeme.token = tokens := by
  have hmem : ∀ token ∈ tokens, token ∈ Set.range Lexeme.token := by
    intro token htoken
    cases token with
    | number value =>
        obtain ⟨spelling, hspelling⟩ := h.numerals value htoken
        exact ⟨.numeral spelling, congrArg Token.number hspelling⟩
    | operator op => exact ⟨.operator op, rfl⟩
    | delimiter side => exact ⟨.delimiter side, rfl⟩
    | eol => exact ⟨.eol, rfl⟩
  have hrange : tokens ∈ Set.range (List.map Lexeme.token) := by
    rw [Set.range_list_map]
    exact hmem
  obtain ⟨lexemes, rfl⟩ := hrange
  exact ⟨lexemes, scannable_map_token_iff.1 h, rfl⟩

theorem exists_tokenize_iff {tokens : List Token} :
    (∃ text, tokenize text = .ok tokens) ↔
      ∃ scanned, tokens = scanned ++ [.eol] ∧ Scannable scanned := by
  constructor
  · rintro ⟨text, htext⟩
    obtain ⟨lexemes, htiles, rfl⟩ := exists_tiles_of_tokenize htext
    exact ⟨_, rfl, scannable_map_token_iff.2 htiles.separated⟩
  · rintro ⟨scanned, rfl, hscanned⟩
    obtain ⟨lexemes, hseparated, rfl⟩ := hscanned.exists_lexemes
    have htiles : Tiles lexemes (lexemes.flatMap Lexeme.chars) := ⟨rfl, hseparated⟩
    refine ⟨String.ofList (lexemes.flatMap Lexeme.chars), tokenize_eq_ok_of_tiles ?_⟩
    rwa [htiles.visible_ofList]

/-! ## Their texts -/

/-- The lexeme that a token is printed as. -/
def Token.printed : Token → Lexeme
  | number value => .numeral (.ofFloat value)
  | operator op => .operator op
  | delimiter side => .delimiter side
  | eol => .eol

namespace Scannable

variable {tokens : List Token} {value : Float}

theorem unsigned (h : Scannable tokens) (hvalue : .number value ∈ tokens) :
    Unsigned value.toModel.unpack := by
  obtain ⟨numeral, rfl⟩ := h.numerals value hvalue
  exact numeral.unsigned_value

theorem printed_spec (h : Scannable tokens)
    (hfinite : ∀ value, .number value ∈ tokens → value.isFinite = true) {token : Token}
    (htoken : token ∈ tokens) :
    token.printed.token = token ∧ token.printed.chars = token.text.toList := by
  cases token with
  | number value =>
      have hunsigned := h.unsigned htoken
      have htext := (floatText_eq hunsigned).2
      rw [if_pos (hfinite value htoken)] at htext
      refine ⟨congrArg Token.number (Numeral.value_ofFloat hunsigned (hfinite value htoken)), ?_⟩
      rw [Token.text, htext, String.toList_ofList]
      rfl
  | operator op => exact ⟨rfl, by cases op <;> rfl⟩
  | delimiter side => exact ⟨rfl, by cases side <;> rfl⟩
  | eol => exact ⟨rfl, rfl⟩

theorem tiles_printed (h : Scannable tokens)
    (hfinite : ∀ value, .number value ∈ tokens → value.isFinite = true) :
    (tokens.map Token.printed).map Lexeme.token = tokens ∧
      Tiles (tokens.map Token.printed) (tokens.flatMap fun token => token.text.toList) := by
  have htokens : (tokens.map Token.printed).map Lexeme.token = tokens :=
    calc
      (tokens.map Token.printed).map Lexeme.token
        = tokens.map fun token => token.printed.token := List.map_map
      _ = tokens.map id := List.map_congr_left fun _ htoken => (h.printed_spec hfinite htoken).1
      _ = tokens := List.map_id tokens
  have hseparated : Separated (tokens.map Token.printed) := by
    rwa [← scannable_map_token_iff, htokens]
  refine ⟨htokens, ?_, hseparated⟩
  rw [List.flatMap_map]
  exact List.flatMap_congr fun token htoken => (h.printed_spec hfinite htoken).2

/-- An infinity is printed with letters that are in no lexeme. -/
theorem isFinite_of_tokenize (h : Scannable tokens) {text : String} {found : List Token}
    (hvisible : visible text = tokens.flatMap fun token => token.text.toList)
    (hfound : tokenize text = .ok found) (hvalue : .number value ∈ tokens) :
    value.isFinite = true := by
  obtain ⟨lexemes, htiles, -⟩ := exists_tiles_of_tokenize hfound
  by_contra hinfinite
  have htext := (floatText_eq (h.unsigned hvalue)).2
  rw [if_neg hinfinite] at htext
  have hletter : 'f' ∈ visible text := by
    rw [hvisible, List.mem_flatMap]
    refine ⟨_, hvalue, ?_⟩
    rw [Token.text, htext]
    decide
  have hmem := htiles.mem_alphabet hletter
  revert hmem
  decide

end Scannable

theorem printing_inverts_scanning :
    (∀ tokens, (∃ text, tokenize text = .ok tokens) ↔
      ∃ scanned, tokens = scanned ++ [.eol] ∧ Scannable scanned) ∧
    ∀ tokens, Scannable tokens →
      (∀ text, visible text = tokens.flatMap (fun token => token.text.toList) →
        (tokenize text = .ok (tokens ++ [.eol]) ↔
          ∀ value, .number value ∈ tokens → value.isFinite = true)) ∧
      ∀ value, .number value ∈ tokens → value.isFinite = false →
        value.isInf = true ∧ floatText value = "inf" := by
  refine ⟨fun tokens => exists_tokenize_iff, ?_⟩
  intro tokens htokens
  refine ⟨?_, ?_⟩
  · intro text hvisible
    constructor
    · exact fun hfound value => htokens.isFinite_of_tokenize hvisible hfound
    · intro hfinite
      obtain ⟨hsame, htiles⟩ := htokens.tiles_printed hfinite
      rw [← hvisible] at htiles
      have hfound := tokenize_eq_ok_of_tiles htiles
      rwa [hsame] at hfound
  · intro value hvalue hinfinite
    have htext := floatText_eq (htokens.unsigned hvalue)
    rw [hinfinite] at htext
    exact htext

/-- The zeros around `00.10` are not printed, and nothing else is lost. -/
theorem tokenize_padded_tenth :
    let tenth : Numeral := ⟨[0, 0], [1, 0], List.cons_ne_nil _ _⟩
    let tokens : List Token :=
      [.eol, .number tenth.value, .operator .div, .delimiter .left, .number tenth.value]
    Scannable tokens ∧
      visible "EOL 0.1 / (0.1" = tokens.flatMap (fun token => token.text.toList) ∧
      tokenize "EOL 0.1 / (0.1" = .ok (tokens ++ [.eol]) := by
  intro tenth tokens
  have hscannable : Scannable tokens := by
    constructor
    · simp [tokens, Token.kind]
    · intro value hvalue
      obtain rfl : value = tenth.value := by simpa [tokens] using hvalue
      exact ⟨tenth, rfl⟩
  have hvisible : visible "EOL 0.1 / (0.1" =
      tokens.flatMap (fun token => token.text.toList) := by
    decide +kernel
  have hfinite : ∀ value, .number value ∈ tokens → value.isFinite = true := by
    intro value hvalue
    obtain rfl : value = tenth.value := by simpa [tokens] using hvalue
    decide +kernel
  have hinverse := printing_inverts_scanning.2 tokens hscannable
  exact ⟨hscannable, hvisible, (hinverse.1 _ hvisible).2 hfinite⟩

end InfixArithmetic
