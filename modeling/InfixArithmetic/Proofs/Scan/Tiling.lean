import InfixArithmetic.Scan
import Mathlib.Data.List.Chain

/-!
# Tilings

A tiling of a text is a sequence of lexemes that spell it, in which no two numerals are neighbours,
since their digits would be read as one.  `Scan.Cuts` says by rules how a text is cut, one rule for
each way to go on.  Main statement: `tokenize_ok_iff_tiles`, a text has tokens exactly when it has a
tiling, and it has one tiling at most.
-/

namespace InfixArithmetic

open Scan (isNumeric startsPiece unmatched)

/-! ## Where lexemes end -/

namespace Lexeme

def isNumeral : Lexeme → Bool
  | numeral _ => true
  | _ => false

/-- The lexeme ends where the rest starts: a numeral would take more digits and points. -/
def EndsBefore (lexeme : Lexeme) (rest : List Char) : Prop :=
  lexeme.isNumeral → ∀ char ∈ rest.head?, isNumeric char = false

end Lexeme

theorem Digit.isNumeric_char (digit : Digit) : isNumeric digit.char = true := by
  simp [isNumeric]

theorem Numeral.isNumeric_of_mem_chars {numeral : Numeral} {char : Char}
    (h : char ∈ numeral.chars) : isNumeric char = true := by
  obtain ⟨whole, fraction, whole_ne_nil⟩ := numeral
  have hdigits : ∀ digits : List Digit, char ∈ digits.map Digit.char → isNumeric char = true := by
    intro digits hchar
    obtain ⟨digit, -, rfl⟩ := List.mem_map.1 hchar
    exact digit.isNumeric_char
  rcases List.mem_append.1 h with hwhole | hfraction
  · exact hdigits whole hwhole
  · cases fraction with
    | nil => contradiction
    | cons first fraction =>
        rcases List.mem_cons.1 hfraction with rfl | hfraction
        · rfl
        · exact hdigits (first :: fraction) hfraction

theorem Numeral.chars_ne_nil (numeral : Numeral) : numeral.chars ≠ [] := by
  simp [chars, numeral.whole_ne_nil]

/-- The first character of a lexeme tells whether it is a numeral. -/
theorem Lexeme.exists_chars_eq_cons (lexeme : Lexeme) :
    ∃ char tail, lexeme.chars = char :: tail ∧ isNumeric char = lexeme.isNumeral := by
  cases lexeme with
  | numeral spelling =>
      obtain ⟨char, tail, hchars⟩ := List.exists_cons_of_ne_nil spelling.chars_ne_nil
      have hchar : char ∈ spelling.chars := by simp [hchars]
      exact ⟨char, tail, hchars, Numeral.isNumeric_of_mem_chars hchar⟩
  | operator op => exact ⟨op.symbol, [], rfl, by cases op <;> rfl⟩
  | delimiter side => exact ⟨side.symbol, [], rfl, by cases side <;> rfl⟩
  | eol => exact ⟨'E', ['O', 'L'], rfl, rfl⟩

theorem Lexeme.isNumeral_of_ofSymbol? {char : Char} {lexeme : Lexeme}
    (h : ofSymbol? char = some lexeme) : lexeme.isNumeral = false := by
  unfold ofSymbol? at h
  split at h
  · cases h
    rfl
  · cases h
    rfl
  · obtain ⟨op, -, rfl⟩ := Option.map_eq_some_iff.1 h
    rfl

namespace Scan

/-! ## Rules of cutting -/

inductive Cuts : List Char → Scan → Prop
  | nil : Cuts [] ⟨[], none⟩
  | lexeme {lexeme : Lexeme} {rest : List Char} {scan : Scan} (hends : lexeme.EndsBefore rest)
      (hrest : Cuts rest scan) : Cuts (lexeme.chars ++ rest) (scan.cons lexeme)
  | run {run rest : List Char} (hne : run ≠ []) (hrun : ∀ char ∈ run, isNumeric char = true)
      (hrest : ∀ char ∈ rest.head?, isNumeric char = false)
      (hnumeral : ∀ numeral : Numeral, run ≠ numeral.chars) : Cuts (run ++ rest) ⟨[], some run⟩
  | gap {char : Char} {rest : List Char} (h : startsPiece (char :: rest) = false) :
      Cuts (char :: rest) ⟨[], some (char :: unmatched rest)⟩

theorem startsPiece_cons_eq_false_iff {char : Char} {rest : List Char} :
    startsPiece (char :: rest) = false ↔
      (∀ tail, char = 'E' → rest = 'O' :: 'L' :: tail → False) ∧ isNumeric char = false ∧
        Lexeme.ofSymbol? char = none := by
  unfold startsPiece
  split
  · contradiction
  · rename_i hcons
    obtain ⟨rfl, rfl⟩ := List.cons.inj hcons
    simp
  · rename_i hmarker hcons
    obtain ⟨rfl, rfl⟩ := List.cons.inj hcons
    simp only [Bool.or_eq_false_iff, Option.isSome_eq_false_iff, Option.isNone_iff_eq_none]
    constructor
    · rintro ⟨hnumeric, hsymbol⟩
      refine ⟨?_, hnumeric, hsymbol⟩
      rintro tail rfl rfl
      exact hmarker tail rfl rfl
    · exact And.right

theorem isNumeric_head?_dropWhile (text : List Char) :
    ∀ char ∈ (text.dropWhile isNumeric).head?, isNumeric char = false := by
  intro char hchar
  have hhead := text.head?_dropWhile_not isNumeric
  rw [Option.mem_def.1 hchar] at hhead
  exact hhead

theorem isNumeric_of_mem_takeWhile {text : List Char} {char : Char}
    (h : char ∈ text.takeWhile isNumeric) : isNumeric char = true := by
  have hall : (text.takeWhile isNumeric).all isNumeric = true := List.all_takeWhile
  exact List.all_eq_true.1 hall char h

theorem cuts_ofChars (text : List Char) : Cuts text (ofChars text) := by
  fun_induction ofChars text with
  | case1 => exact .nil
  | case2 rest ih =>
      have hends : Lexeme.eol.EndsBefore rest := by
        intro hnumeral
        contradiction
      exact .lexeme hends ih
  | case3 char rest _ hnumeric run spelling hrun ih =>
      have hchars : spelling.chars = run := (Numeral.ofChars?_eq_some_iff.1 hrun).symm
      have hends : (Lexeme.numeral spelling).EndsBefore (rest.dropWhile isNumeric) :=
        fun _ => isNumeric_head?_dropWhile rest
      have hcuts := Cuts.lexeme hends ih
      rw [Lexeme.chars, hchars] at hcuts
      simpa [run] using hcuts
  | case4 char rest _ hnumeric run hrun =>
      have hall : ∀ char ∈ run, isNumeric char = true := by
        intro other hother
        rcases List.mem_cons.1 hother with rfl | hother
        · exact hnumeric
        · exact isNumeric_of_mem_takeWhile hother
      have hnumeral : ∀ numeral : Numeral, run ≠ numeral.chars := by
        intro numeral hchars
        rw [Numeral.ofChars?_eq_some_iff.2 hchars] at hrun
        contradiction
      have hcuts := Cuts.run (List.cons_ne_nil _ _) hall (isNumeric_head?_dropWhile rest) hnumeral
      simpa [run] using hcuts
  | case5 char rest _ _ lexeme hsymbol ih =>
      have hends : lexeme.EndsBefore rest := by
        intro hnumeral
        rw [Lexeme.isNumeral_of_ofSymbol? hsymbol] at hnumeral
        contradiction
      have hcuts := Cuts.lexeme hends ih
      rwa [Lexeme.chars_of_ofSymbol? hsymbol] at hcuts
  | case6 char rest hmarker hnumeric hsymbol =>
      exact .gap (startsPiece_cons_eq_false_iff.2 ⟨hmarker, by simpa using hnumeric, hsymbol⟩)

theorem ofChars_run_append {run rest : List Char} (hne : run ≠ [])
    (hrun : ∀ char ∈ run, isNumeric char = true)
    (hrest : ∀ char ∈ rest.head?, isNumeric char = false) :
    (∀ numeral, Numeral.ofChars? run = some numeral →
      ofChars (run ++ rest) = cons (.numeral numeral) (ofChars rest)) ∧
    (Numeral.ofChars? run = none → ofChars (run ++ rest) = ⟨[], some run⟩) := by
  obtain ⟨char, run, rfl⟩ := List.exists_cons_of_ne_nil hne
  have hchar : isNumeric char = true := hrun char (by simp)
  have htail : ∀ other ∈ run, isNumeric other = true := fun other h => hrun other (by simp [h])
  have hmarker : ∀ tail, char = 'E' → run ++ rest = 'O' :: 'L' :: tail → False := by
    rintro tail rfl
    contradiction
  have hstop : rest.takeWhile isNumeric = [] ∧ rest.dropWhile isNumeric = rest := by
    cases rest with
    | nil => simp
    | cons other rest => simp [hrest other rfl]
  have htake : (run ++ rest).takeWhile isNumeric = run := by
    rw [List.takeWhile_append_of_pos htail, hstop.1, List.append_nil]
  have hdrop : (run ++ rest).dropWhile isNumeric = rest := by
    rw [List.dropWhile_append_of_pos htail, hstop.2]
  have hcut := ofChars.eq_3 char (run ++ rest) hmarker
  rw [if_pos hchar, htake, hdrop] at hcut
  constructor
  · intro numeral hnumeral
    rw [List.cons_append, hcut]
    simp only [hnumeral]
  · intro hnone
    rw [List.cons_append, hcut]
    simp only [hnone]

theorem ofChars_symbol {char : Char} {lexeme : Lexeme} (h : Lexeme.ofSymbol? char = some lexeme)
    (rest : List Char) : ofChars (char :: rest) = cons lexeme (ofChars rest) := by
  have hnumeric : ¬ isNumeric char := by
    obtain ⟨first, tail, hchars, hfirst⟩ := lexeme.exists_chars_eq_cons
    rw [Lexeme.chars_of_ofSymbol? h] at hchars
    obtain ⟨rfl, -⟩ := List.cons.inj hchars
    simp [hfirst, Lexeme.isNumeral_of_ofSymbol? h]
  have hmarker : ∀ tail, char = 'E' → rest = 'O' :: 'L' :: tail → False := by
    rintro tail rfl
    contradiction
  rw [ofChars, if_neg hnumeric]
  · simp only [h]
  · exact hmarker

theorem Cuts.ofChars_eq {text : List Char} {scan : Scan} (h : Cuts text scan) :
    ofChars text = scan := by
  induction h with
  | nil => rw [ofChars]
  | @lexeme lexeme rest scan hends _ ih =>
      subst ih
      cases lexeme with
      | numeral spelling =>
          have hrun := ofChars_run_append spelling.chars_ne_nil
            (fun _ => Numeral.isNumeric_of_mem_chars) (hends rfl)
          exact hrun.1 spelling spelling.ofChars?_chars
      | operator op => exact ofChars_symbol (by cases op <;> rfl) rest
      | delimiter side => exact ofChars_symbol (by cases side <;> rfl) rest
      | eol => simp [Lexeme.chars, ofChars]
  | @run run rest hne hrun hrest hnumeral =>
      have hnone : Numeral.ofChars? run = none := by
        cases hspelling : Numeral.ofChars? run with
        | none => rfl
        | some spelling => exact absurd (Numeral.ofChars?_eq_some_iff.1 hspelling) (hnumeral spelling)
      exact (ofChars_run_append hne hrun hrest).2 hnone
  | gap h =>
      obtain ⟨hmarker, hnumeric, hsymbol⟩ := startsPiece_cons_eq_false_iff.1 h
      rw [ofChars, if_neg (by simp [hnumeric])]
      · simp only [hsymbol]
      · exact hmarker

theorem cuts_iff {text : List Char} {scan : Scan} : Cuts text scan ↔ ofChars text = scan := by
  constructor
  · exact Cuts.ofChars_eq
  · rintro rfl
    exact cuts_ofChars text

end Scan

/-! ## Tilings -/

def Separated (lexemes : List Lexeme) : Prop :=
  lexemes.IsChain fun first second => ¬ (first.isNumeral ∧ second.isNumeral)

structure Tiles (lexemes : List Lexeme) (text : List Char) : Prop where
  chars_eq : lexemes.flatMap Lexeme.chars = text
  separated : Separated lexemes

theorem separated_cons_iff {lexeme : Lexeme} {lexemes : List Lexeme} :
    Separated (lexeme :: lexemes) ↔
      lexeme.EndsBefore (lexemes.flatMap Lexeme.chars) ∧ Separated lexemes := by
  rw [Separated, List.isChain_cons, Separated]
  refine and_congr_left fun _ => ?_
  cases lexemes with
  | nil => simp [Lexeme.EndsBefore]
  | cons next lexemes =>
      obtain ⟨char, tail, hchars, hchar⟩ := next.exists_chars_eq_cons
      simp [Lexeme.EndsBefore, hchars, hchar]

theorem separated_append_cons {first second : List Lexeme} {lexeme : Lexeme}
    (hfirst : Separated first) (hsecond : Separated second) (h : lexeme.isNumeral = false) :
    Separated (first ++ lexeme :: second) := by
  refine List.isChain_append.2 ⟨hfirst, List.isChain_cons.2 ⟨?_, hsecond⟩, ?_⟩
  · simp [h]
  · simp [h]

theorem Tiles.cuts {lexemes : List Lexeme} {text : List Char} (h : Tiles lexemes text) :
    Scan.Cuts text ⟨lexemes, none⟩ := by
  obtain ⟨rfl, hseparated⟩ := h
  induction lexemes with
  | nil => exact .nil
  | cons lexeme lexemes ih =>
      obtain ⟨hends, hrest⟩ := separated_cons_iff.1 hseparated
      exact .lexeme hends (ih hrest)

theorem Scan.Cuts.tiles {text : List Char} {scan : Scan} (h : Scan.Cuts text scan)
    (hoffending : scan.offending? = none) : Tiles scan.lexemes text := by
  induction h with
  | nil => exact ⟨rfl, .nil⟩
  | @lexeme lexeme rest scan hends _ ih =>
      obtain ⟨hchars, hseparated⟩ := ih hoffending
      refine ⟨?_, separated_cons_iff.2 ⟨?_, hseparated⟩⟩
      · rw [Scan.cons, List.flatMap_cons, hchars]
      · rwa [hchars]
  | run | gap => contradiction

theorem tiles_iff {lexemes : List Lexeme} {text : List Char} :
    Tiles lexemes text ↔ Scan.ofChars text = ⟨lexemes, none⟩ := by
  constructor
  · exact fun h => h.cuts.ofChars_eq
  · intro h
    have hcuts := Scan.cuts_iff.2 h
    exact hcuts.tiles rfl

theorem tokenize_eq_ok_of_tiles {text : String} {lexemes : List Lexeme}
    (h : Tiles lexemes (visible text)) :
    tokenize text = .ok (lexemes.map Lexeme.token ++ [.eol]) := by
  rw [tokenize, Scan.ofText, tiles_iff.1 h]
  rfl

theorem exists_tiles_of_tokenize {text : String} {tokens : List Token}
    (h : tokenize text = .ok tokens) :
    ∃ lexemes, Tiles lexemes (visible text) ∧ tokens = lexemes.map Lexeme.token ++ [.eol] := by
  rw [tokenize, Scan.ofText] at h
  have hcuts := Scan.cuts_ofChars (visible text)
  generalize Scan.ofChars (visible text) = scan at h hcuts
  obtain ⟨lexemes, offending?⟩ := scan
  cases offending? with
  | none => exact ⟨lexemes, hcuts.tiles rfl, (Except.ok.inj h).symm⟩
  | some piece => contradiction

theorem tokenize_ok_iff_tiles (text : String) :
    (∀ tokens, tokenize text = .ok tokens ↔
      ∃ lexemes, Tiles lexemes (visible text) ∧ tokens = lexemes.map Lexeme.token ++ [.eol]) ∧
    ∀ first second, Tiles first (visible text) → Tiles second (visible text) → first = second := by
  refine ⟨fun tokens => ⟨exists_tiles_of_tokenize, ?_⟩, ?_⟩
  · rintro ⟨lexemes, htiles, rfl⟩
    exact tokenize_eq_ok_of_tiles htiles
  · intro first second hfirst hsecond
    have hsame := (tiles_iff.1 hfirst).symm.trans (tiles_iff.1 hsecond)
    exact congrArg Scan.lexemes hsame

end InfixArithmetic
