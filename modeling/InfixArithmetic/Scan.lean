import InfixArithmetic.Blank
import InfixArithmetic.Failure
import InfixArithmetic.Lexeme

/-!
# Scanning

A text without its blanks is cut into lexemes from left to right.  Digits and points are taken in
maximal runs, and a run that is no numeral is offending as a whole.  Where no lexeme can start, the
offending piece reaches up to the next place where one can.  Scanning stops at the first offending
piece, so what follows it does not matter.
-/

namespace InfixArithmetic

/-- The lexemes of a text up to its first offending piece, and that piece if there is one. -/
structure Scan where
  lexemes : List Lexeme
  offending? : Option (List Char)
  deriving DecidableEq

namespace Scan

def cons (lexeme : Lexeme) (scan : Scan) : Scan :=
  { scan with lexemes := lexeme :: scan.lexemes }

/-! ## Where lexemes start -/

def isNumeric (char : Char) : Bool :=
  Digit.isDigit char || char == '.'

/-- Whether a numeric run, a symbol or the complete end marker opens the text. -/
def startsPiece : List Char → Bool
  | [] => false
  | 'E' :: 'O' :: 'L' :: _ => true
  | char :: _ => isNumeric char || (Lexeme.ofSymbol? char).isSome

/-- The characters up to the next place where a piece starts. -/
def unmatched : List Char → List Char
  | [] => []
  | char :: rest => if startsPiece (char :: rest) then [] else char :: unmatched rest

/-! ## Cutting -/

def ofChars : List Char → Scan
  | [] => ⟨[], none⟩
  | 'E' :: 'O' :: 'L' :: rest => cons .eol (ofChars rest)
  | char :: rest =>
      if isNumeric char then
        let run := char :: rest.takeWhile isNumeric
        match Numeral.ofChars? run with
        | some spelling => cons (.numeral spelling) (ofChars (rest.dropWhile isNumeric))
        | none => ⟨[], some run⟩
      else
        match Lexeme.ofSymbol? char with
        | some lexeme => cons lexeme (ofChars rest)
        | none => ⟨[], some (char :: unmatched rest)⟩
termination_by chars => chars.length
decreasing_by
  all_goals simp only [List.length_cons]
  · omega
  · have := (List.dropWhile_suffix (l := rest) isNumeric).length_le
    omega
  · omega

def ofText (text : String) : Scan :=
  ofChars (visible text)

/-! ## Tokens -/

def lexemeTokens (scan : Scan) : List Token :=
  scan.lexemes.map Lexeme.token

/-- The tokens of a scan that went through, closed by an end token of its own. -/
def tokens (scan : Scan) : List Token :=
  scan.lexemeTokens ++ [.eol]

def outcome (scan : Scan) : Except ScanError (List Token) :=
  match scan.offending? with
  | none => .ok scan.tokens
  | some piece => .error (.unknownToken (String.ofList piece))

end Scan

/-- All tokens of a text with the end token that closes them, or its first offending piece. -/
def tokenize (text : String) : Except ScanError (List Token) :=
  (Scan.ofText text).outcome

end InfixArithmetic
